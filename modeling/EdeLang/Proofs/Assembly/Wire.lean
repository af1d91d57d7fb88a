import EdeLang.Assembly.Wire
import EdeLang.Proofs.Json.RoundTrip
import EdeLang.Proofs.Lowering.Discipline

/-!
# The wire form of code

Code is read back from its wire form. Labels, label operands and names of system calls are all
strings there; the place in the list and the operand kinds of the opcode tell them apart again.
Whatever is read consists of labels and instructions that pass the signature check.
-/

namespace EdeLang

open Json

theorem Opcode.ofName?_name (op : Opcode) : Opcode.ofName? op.name = some op := by
  cases op <;> decide +kernel

theorem Syscall.ofName?_name (code : Syscall) : Syscall.ofName? code.name = some code := by
  cases code <;> decide +kernel

namespace Operand

def wire : Operand → WireOperand
  | .int v => .int v
  | .double d => .double d
  | .label name => .string name
  | .syscall code => .string code.name

theorem ofJson?_toJson (o : Operand) : WireOperand.ofJson? o.toJson = some o.wire := by
  cases o with
  | int v =>
    have hlow := v.le_toInt
    have hhigh := v.toInt_lt
    have hrange : -0x8000000000000000 ≤ v.toInt ∧ v.toInt < 0x8000000000000000 := by omega
    rw [toJson, WireOperand.ofJson?, if_pos hrange, Int64.ofInt_toInt]
    rfl
  | double d => rfl
  | label name => rfl
  | syscall code => rfl

/-- The kind for which an operand stands tells what its spelling means. -/
theorem operand_wire {o : Operand} {arg : Arg} (h : o.fits arg = true) :
    o.wire.operand arg = .ok o := by
  cases o with
  | int v => rfl
  | double d => rfl
  | label name => cases arg <;> first | rfl | cases h
  | syscall code =>
    cases arg with
    | syscall => simp [wire, WireOperand.operand, Syscall.ofName?_name]
    | _ => cases h

theorem operands_wire {os : List Operand} {args : List Arg} (h : fitAll os args = true) :
    WireOperand.operands args (os.map wire) = .ok os ∧ os.length = args.length := by
  induction os generalizing args with
  | nil =>
    cases args with
    | nil => exact ⟨rfl, rfl⟩
    | cons arg args => cases h
  | cons o os ih =>
    cases args with
    | nil => cases h
    | cons arg args =>
      rw [fitAll, Bool.and_eq_true] at h
      obtain ⟨hoperands, hlength⟩ := ih h.2
      refine ⟨?_, by rw [List.length_cons, List.length_cons, hlength]⟩
      rw [List.map_cons, WireOperand.operands, operand_wire h.1, hoperands]
      rfl

theorem mapM_ofJson? (os : List Operand) :
    (os.map toJson).mapM WireOperand.ofJson? = some (os.map wire) := by
  induction os with
  | nil => rfl
  | cons o os ih => simp [List.mapM_cons, ofJson?_toJson, ih]

end Operand

theorem Inst.ofWire_wire {i : Inst} (h : i.wellFormed = true) :
    Inst.ofWire (.string i.op.name :: i.args.map Operand.wire) = .ok i := by
  obtain ⟨hoperands, hlength⟩ := Operand.operands_wire h
  have hcount : ¬ (i.args.map Operand.wire).length ≠ i.op.args.length := by
    rw [List.length_map, hlength, ne_eq, not_not]
  simp only [Inst.ofWire, Opcode.ofName?_name, if_neg hcount, hoperands, bind_ok,
    Inst.make_eq_ok_iff.mpr h]

namespace Element

/-- The element has a wire form that is read back: it is a label, or a checked instruction without
a double. -/
def Portable (e : Element) : Prop :=
  ∀ i, e = .inst i → i.wellFormed = true ∧ ∀ d, .double d ∉ i.args

theorem ofJson_toJson {e : Element} (h : e.Portable) : Element.ofJson e.toJson = .ok e := by
  cases e with
  | label name => rfl
  | inst i =>
    have hparts : (Json.string i.op.name :: i.args.map Operand.toJson).mapM WireOperand.ofJson? =
        some (.string i.op.name :: i.args.map Operand.wire) := by
      rw [List.mapM_cons, Operand.mapM_ofJson?]
      rfl
    rw [toJson, ofJson, hparts]
    simp only [Inst.ofWire_wire (h i rfl).1, bind_ok]
    rfl

theorem reads_operand (depth : Nat) {o : Operand} (h : ∀ d, o ≠ .double d) :
    Reads depth o.toJson := by
  cases o with
  | int v => exact reads_word depth v
  | double d => exact absurd rfl (h d)
  | label name => exact reads_string depth name
  | syscall code => exact reads_string depth code.name

theorem Portable.reads {e : Element} (h : e.Portable) (depth : Nat) :
    Reads (depth + 1) e.toJson := by
  cases e with
  | label name => exact reads_string _ name
  | inst i =>
    apply reads_array
    rw [List.forall_mem_cons]
    refine ⟨reads_string depth i.op.name, ?_⟩
    intro v hv
    obtain ⟨o, ho, rfl⟩ := List.mem_map.mp hv
    apply reads_operand
    rintro d rfl
    exact (h i rfl).2 d ho

end Element

namespace Code

theorem readElements_step {first : Bool} {text rest rest' : List Char} {level fuel : Nat}
    {e : Element} {code : Code} (he : e.Portable)
    (hstart : Starts first text (pretty level e.toJson ++ rest)) (hrest : Ends rest)
    (hmore : readElements fuel false rest = .ok (code, rest')) :
    readElements (fuel + 1) first text = .ok (e :: code, rest') := by
  obtain ⟨hopens, hnext⟩ := hstart
  have hfuel : (pretty level e.toJson).length < fuelFor (pretty level e.toJson ++ rest) := by
    rw [fuelFor, List.length_append]
    omega
  have hvalue := (he.reads 125).value_eq level _ rest hrest hfuel
  rw [readElements]
  split
  · next hskip =>
    rw [hskip] at hopens
    exact hopens.1.elim
  · next hskip =>
    rw [hskip] at hopens
    exact absurd rfl hopens.2
  · next hskip =>
    rw [hskip] at hnext
    have hdepth : maxDepth - 1 = 125 + 1 := rfl
    simp only [hnext, hdepth, hvalue, Element.ofJson_toJson he, hmore]

theorem readElements_pretty {code : Code} (hcode : ∀ e ∈ code, e.Portable) (level outer : Nat)
    (rest : List Char) {fuel : Nat}
    (hfuel : (prettyElements level (code.map Element.toJson)).length < fuel) :
    readElements fuel false (prettyElements level (code.map Element.toJson) ++
      (newLine outer ++ ']' :: rest)) = .ok (code, rest) := by
  obtain ⟨k, rfl⟩ : ∃ k, fuel = k + 1 := ⟨fuel - 1, by omega⟩
  induction code generalizing k with
  | nil =>
    have hsolid : Solid (']' :: rest) := rfl
    rw [List.map_nil, prettyElements, List.nil_append, readElements,
      skipBlanks_newLine outer hsolid]
    rfl
  | cons e code ih =>
    rw [List.forall_mem_cons] at hcode
    have htext : prettyElements level ((e :: code).map Element.toJson) ++
        (newLine outer ++ ']' :: rest) = ',' :: newLine level ++ (pretty level e.toJson ++
          (prettyElements level (code.map Element.toJson) ++ (newLine outer ++ ']' :: rest))) := by
      simp [prettyElements]
    have hlength : (prettyElements level (code.map Element.toJson)).length + 1 ≤ k := by
      simp [prettyElements, newLine] at hfuel
      omega
    have hstart := starts_next level (((hcode.1.reads 0).opens level).append
      (prettyElements level (code.map Element.toJson) ++ (newLine outer ++ ']' :: rest)))
    obtain ⟨j, rfl⟩ : ∃ j, k = j + 1 := ⟨k - 1, by omega⟩
    rw [htext]
    exact readElements_step hcode.1 hstart (ends_prettyElements level outer _ rest)
      (ih hcode.2 j (by omega))

theorem readWire_bracket {cs : List Char} {code : Code}
    (h : readElements (cs.length + 1) true cs = .ok (code, [])) :
    readWire ('[' :: cs) = .ok code := by
  have hsolid : Solid ('[' :: cs) := rfl
  rw [readWire, skipBlanks_of_solid hsolid]
  simp only [h]
  rfl

theorem readWire_pretty {code : Code} (hcode : ∀ e ∈ code, e.Portable) :
    readWire (pretty 0 (.array (code.map Element.toJson))) = .ok code := by
  cases code with
  | nil => rfl
  | cons e code =>
    rw [List.forall_mem_cons] at hcode
    have htext : pretty 0 (.array ((e :: code).map Element.toJson)) = '[' :: (newLine 1 ++
        (pretty 1 e.toJson ++ (prettyElements 1 (code.map Element.toJson) ++
          (newLine 0 ++ [']'])))) := by
      simp [pretty]
    have hstart := starts_first 1 (((hcode.1.reads 0).opens 1).append
      (prettyElements 1 (code.map Element.toJson) ++ (newLine 0 ++ [']'])))
    rw [htext]
    apply readWire_bracket
    apply readElements_step hcode.1 hstart (ends_prettyElements 1 0 _ [])
    apply readElements_pretty hcode.2
    simp only [List.length_append, newLine, List.length_cons]
    omega

/-- Portable code is read back from its wire form. -/
theorem ofWire_of_portable {code : Code} (hcode : ∀ e ∈ code, e.Portable) :
    ofWire code.toWire = .ok code := by
  rw [ofWire, toWire, write, String.toList_ofList, readWire_pretty hcode]

end Code

theorem Inst.wellFormed_of_ofWire {ws : List WireOperand} {i : Inst} (h : Inst.ofWire ws = .ok i) :
    i.wellFormed = true := by
  unfold Inst.ofWire at h
  split at h
  · split at h
    · cases h
    · split at h
      · cases h
      · obtain ⟨args, _, h⟩ := Lowering.bind_eq_ok.mp h
        split at h
        · next hmake =>
          cases h
          unfold Inst.make at hmake
          split at hmake
          · next hformed =>
            cases hmake
            exact hformed
          · cases hmake
        · cases h
  · cases h

theorem Element.wellFormed_of_ofJson {v : Json} {i : Inst}
    (h : Element.ofJson v = .ok (.inst i)) : i.wellFormed = true := by
  unfold Element.ofJson at h
  split at h
  · cases h
  · split at h
    · cases h
    · obtain ⟨j, hj, h⟩ := Lowering.bind_eq_ok.mp h
      cases h
      exact Inst.wellFormed_of_ofWire hj
  · cases h

namespace Code

theorem readElements_succ {fuel : Nat} {first : Bool} {text rest : List Char} {code : Code}
    (h : readElements (fuel + 1) first text = .ok (code, rest)) :
    code = [] ∨ ∃ v e more mid, Element.ofJson v = .ok e ∧
      readElements fuel false mid = .ok (more, rest) ∧ code = e :: more := by
  rw [readElements] at h
  split at h
  · cases h
  · cases h
    exact .inl rfl
  · split at h
    · cases h
    · split at h
      · cases h
      · next v mid _ =>
        split at h
        · cases h
        · next e he =>
          split at h
          · cases h
          · next more rest' hmore =>
            cases h
            exact .inr ⟨v, e, more, mid, he, hmore, rfl⟩

theorem readElements_signed {fuel : Nat} {first : Bool} {text rest : List Char} {code : Code}
    (h : readElements fuel first text = .ok (code, rest)) : Lowering.Signed code := by
  induction fuel generalizing first text code rest with
  | zero => cases h
  | succ fuel ih =>
    obtain rfl | ⟨v, e, more, mid, he, hmore, rfl⟩ := readElements_succ h
    · exact .nil
    · cases e with
      | label name => exact (ih hmore).label name
      | inst i => exact (ih hmore).cons (Element.wellFormed_of_ofJson he)

theorem ofWire_signed {text : String} {code : Code} (h : ofWire text = .ok code) :
    Lowering.Signed code := by
  unfold ofWire at h
  split at h
  · next hread =>
    cases h
    unfold readWire at hread
    split at hread
    · split at hread
      · cases hread
      · next helements =>
        split at hread
        · cases hread
          exact readElements_signed helements
        · cases hread
    · cases hread
    · split at hread
      · cases hread
      · cases hread
  · cases h

end Code

/-- The code of a checked source text is portable. -/
theorem Module.portable_of_checked {name source : String} {m : Module}
    (hchecked : Module.checked name source = .ok m) (hsize : source.length < 2 ^ 63) :
    ∃ code, m.lower = .ok code ∧ ∀ e ∈ code, e.Portable := by
  have hm := typed_of_checked hchecked
  obtain ⟨hweight, hnarrow⟩ := narrow_of_checked hchecked
  obtain ⟨functions, lastId, main, hfuncs, hmain, hlower, _, _⟩ := lower_ok hm
  have hsigned := lower_signed hsize hweight hnarrow hfuncs hmain
  obtain ⟨top, marks, jumps, hclimbs, _⟩ := Lowering.climbs_wholeCode hm
    (balanced_of_checked hchecked hsize) hfuncs hmain
  refine ⟨wholeCode functions main, hlower, ?_⟩
  rintro e he i rfl
  obtain ⟨height, hissued⟩ := hclimbs.issued he
  exact ⟨hsigned i he, hissued.not_double⟩

namespace Code

/-- Code whose instructions pass the signature check and hold no double is read back from its wire
form, and so is the code of every checked source text. Code that is read consists of labels and of
instructions that pass the check. -/
theorem ofWire_toWire :
    (∀ code : Code, (∀ i, .inst i ∈ code → Inst.make i.op i.args = .ok i ∧
        ∀ d, .double d ∉ i.args) → ofWire code.toWire = .ok code) ∧
      (∀ text code, ofWire text = .ok code → ∀ i, .inst i ∈ code →
        Inst.make i.op i.args = .ok i) ∧
      ∀ name source m, Module.checked name source = .ok m → source.length < 2 ^ 63 →
        ∃ code, m.lower = .ok code ∧ ofWire code.toWire = .ok code := by
  refine ⟨fun code hcode => ?_, fun text code hread i hi => ?_, fun name source m hm hsize => ?_⟩
  · apply ofWire_of_portable
    rintro e he i rfl
    obtain ⟨hmake, hdouble⟩ := hcode i he
    exact ⟨Inst.make_eq_ok_iff.mp hmake, hdouble⟩
  · exact Inst.make_eq_ok_iff.mpr (ofWire_signed hread i hi)
  · obtain ⟨code, hlower, hportable⟩ := Module.portable_of_checked hm hsize
    exact ⟨code, hlower, ofWire_of_portable hportable⟩

/-- Labels that need escapes, one of which is spelled like a system call. -/
def oddCode : Code :=
  [.label "\"\\\n\x01é😀", .inst (.pushi (-9223372036854775808)), .label "EXIT",
    .inst (.calll "EXIT" 0), .inst (.syscall .exit)]

theorem ofWire_toWire_oddCode :
    (ofWire oddCode.toWire = .ok oddCode ∧
      Inst.make .calll [.label "EXIT", .int 0] = .ok (.calll "EXIT" 0)) ∧
      ∃ m code, Module.checked "spin" Module.spinText = .ok m ∧ Module.spinText.length < 2 ^ 63 ∧
        m.lower = .ok code ∧ ofWire code.toWire = .ok code := by
  obtain ⟨hportable, hsigned, hchecked⟩ := ofWire_toWire
  have hinsts : ∀ i, .inst i ∈ oddCode → Inst.make i.op i.args = .ok i ∧
      ∀ d, .double d ∉ i.args := by
    intro i hi
    simp only [oddCode, List.mem_cons, Element.inst.injEq, reduceCtorEq, List.not_mem_nil, false_or,
      or_false] at hi
    rcases hi with rfl | rfl | rfl
    · exact ⟨rfl, by simp [Inst.pushi]⟩
    · exact ⟨rfl, by simp [Inst.calll]⟩
    · exact ⟨rfl, by simp [Inst.syscall]⟩
  have hread := hportable oddCode hinsts
  obtain ⟨m, hm⟩ := Module.exists_checked_spinText
  have hsize : Module.spinText.length < 2 ^ 63 := by decide
  obtain ⟨code, hlower, hcode⟩ := hchecked "spin" Module.spinText m hm hsize
  exact ⟨⟨hread, hsigned _ _ hread (.calll "EXIT" 0) (by simp [oddCode])⟩, m, code, hm, hsize,
    hlower, hcode⟩

end Code

end EdeLang
