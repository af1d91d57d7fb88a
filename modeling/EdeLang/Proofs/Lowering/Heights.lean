import EdeLang.Proofs.Lowering.Assembled

/-!
# Heights of the stack

Each instruction takes words from the stack and puts words on it. Through a piece of code the
height of the stack above the base of its frame therefore climbs from instruction to instruction,
and it does so in the same way wherever the piece stands. A label of a function or of the
statements of a module begins anew, at the height with which it is entered.
-/

namespace EdeLang

/-- The number that an operand gives, as a slot or a count. -/
def Operand.number : Operand → Nat
  | .int v => v.toInt.toNat
  | _ => 0

theorem Operand.number_ofNat {k : Nat} (h : k < 2 ^ 63) :
    (Operand.int (Int64.ofNat k)).number = k := by
  simp [number, Int64.toInt_ofNat_of_lt h]

/-- A number that is too large for a word is read as a smaller one. -/
theorem Operand.number_ofNat_le (k : Nat) : (Operand.int (Int64.ofNat k)).number ≤ k := by
  have hsize : Int64.size = 2 ^ 64 := rfl
  rw [number, Int64.toInt_ofNat', Int.bmod_def, hsize]
  split <;> omega

namespace Inst

def number (i : Inst) : Nat := (i.args.getLast?.map Operand.number).getD 0

/-- Words that an instruction takes from the stack of its frame. -/
def pops (i : Inst) : Nat :=
  match i.op with
  | .noop | .push | .pushi | .pushd | .sload | .jump | .jumpl => 0
  | .pop | .sstore | .jumpz | .jumpnz | .jumpzl | .jumpnzl | .syscall | .ret => 1
  | .iadd | .isub | .imul | .idiv | .dadd | .dsub | .dmul | .ddiv | .eq | .neq | .swap | .scat
  | .hload => 2
  | .hstore => 3
  | .call | .calll | .pack => i.number

/-- Words that an instruction leaves on the stack of its frame in their place. A call leaves the
result of the function. -/
def pushes (i : Inst) : Nat :=
  match i.op with
  | .noop | .pop | .sstore | .jump | .jumpl | .jumpz | .jumpnz | .jumpzl | .jumpnzl | .ret
  | .hstore => 0
  | .push | .pushi | .pushd | .sload | .iadd | .isub | .imul | .idiv | .dadd | .dsub | .dmul
  | .ddiv | .eq | .neq | .call | .calll | .pack | .scat | .hload => 1
  | .swap => 2
  | .syscall => if i.args = [.syscall .malloc] then 1 else 0

def next (i : Inst) (height : Nat) : Nat := height - i.pops + i.pushes

/-- The label to which an instruction may jump within its frame. -/
def target? (i : Inst) : Option String :=
  match i.op, i.args with
  | .jumpl, [.label name] | .jumpzl, [.label name] | .jumpnzl, [.label name] => some name
  | _, _ => none

def continues (i : Inst) : Bool :=
  match i.op with
  | .jump | .jumpl | .ret => false
  | .syscall => decide (i.args ≠ [.syscall .exit])
  | _ => true

end Inst

/-- The height with which a label is entered from elsewhere: that of its parameters for a
function, zero for the statements of the module. -/
def Module.entryHeight (m : Module) (label : String) : Option Nat :=
  if label = Lowering.mainLabel then some 0
  else (m.funcs.find? fun f => Lowering.funcLabel f.name == label).map fun f => f.params.length

namespace Lowering

variable {m : Module}

theorem entryHeight_mainLabel : m.entryHeight mainLabel = some 0 := by simp [Module.entryHeight]

theorem head?_funcLabel (name : String) : (funcLabel name).toList.head? = some 'f' := by
  simp [funcLabel, String.toList_append]

theorem funcLabel_ne_mainLabel (name : String) : funcLabel name ≠ mainLabel := by
  intro h
  have hhead := head?_funcLabel name
  rw [h] at hhead
  revert hhead
  decide

theorem entryHeight_funcLabel (hnodup : (m.funcs.map Func.name).Nodup) {f : Func}
    (hf : f ∈ m.funcs) : m.entryHeight (funcLabel f.name) = some f.params.length := by
  rw [Module.entryHeight, if_neg (funcLabel_ne_mainLabel f.name)]
  cases hfind : m.funcs.find? fun g => funcLabel g.name == funcLabel f.name with
  | none => simpa using List.find?_eq_none.mp hfind f hf
  | some g =>
    have hname : g.name = f.name := funcLabel_injective (by simpa using List.find?_some hfind)
    rw [List.inj_on_of_nodup_map hnodup (List.mem_of_find?_eq_some hfind) hf hname]
    rfl

/-- The first character tells the labels that are entered from elsewhere. -/
theorem entryHeight_eq_none {label : String} (hfunc : label.toList.head? ≠ some 'f')
    (hmain : label ≠ mainLabel) : m.entryHeight label = none := by
  rw [Module.entryHeight, if_neg hmain, Option.map_eq_none_iff, List.find?_eq_none]
  intro f _ hlabel
  rw [← eq_of_beq hlabel, head?_funcLabel] at hfunc
  exact hfunc rfl

theorem entryHeight_numbered {label : String} {id : Nat} (h : label ∈ numbered id) :
    m.entryHeight label = none := by
  have hhead := head?_numbered h
  have hmain : label ≠ mainLabel := by
    rintro rfl
    revert hhead
    decide
  refine entryHeight_eq_none ?_ hmain
  rcases hhead with hhead | hhead <;> simp [hhead]

theorem entryHeight_startLabel : m.entryHeight startLabel = none :=
  entryHeight_eq_none (by decide) (by decide)

/-- Instructions of lowered code, with the heights at which they may stand. -/
inductive Issues (m : Module) : Inst → Nat → Prop
  | push (v : Int64) (h : Nat) : Issues m (.pushi v) h
  | pack {k h : Nat} (size : k < 2 ^ 63) (enough : k ≤ h) : Issues m (.pack k) h
  | load {k h : Nat} (slot : k < h) : Issues m (.sload k) h
  | store {k h : Nat} (slot : k + 1 < h) : Issues m (.sstore k) h
  | swap {h : Nat} (enough : 2 ≤ h) : Issues m (.plain .swap) h
  | operator (o : BinOp) (left : Ty) {h : Nat} (enough : 2 ≤ h) :
      Issues m (.plain (Lowering.operator o left)) h
  | call {f : Func} {h : Nat} (callee : f ∈ m.funcs) (size : f.params.length < 2 ^ 63)
      (enough : f.params.length ≤ h) : Issues m (.calll (funcLabel f.name) f.params.length) h
  | pop {h : Nat} (enough : 1 ≤ h) : Issues m (.plain .pop) h
  | ret {h : Nat} (enough : 1 ≤ h) : Issues m (.plain .ret) h
  | jump (name : String) (h : Nat) : Issues m (.jumpl name) h
  | jumpz (name : String) {h : Nat} (enough : 1 ≤ h) : Issues m (.jumpzl name) h
  | exit {h : Nat} (enough : 1 ≤ h) : Issues m (.syscall .exit) h

theorem number_pack {k : Nat} (h : k < 2 ^ 63) : (Inst.pack k).number = k :=
  Operand.number_ofNat h

theorem number_calll (name : String) {k : Nat} (h : k < 2 ^ 63) :
    (Inst.calll name k).number = k := Operand.number_ofNat h

theorem pops_operator (o : BinOp) (left : Ty) : (Inst.plain (operator o left)).pops = 2 := by
  cases o with
  | add => rw [operator]; split <;> rfl
  | sub | mul | div => rfl

theorem pushes_operator (o : BinOp) (left : Ty) : (Inst.plain (operator o left)).pushes = 1 := by
  cases o with
  | add => rw [operator]; split <;> rfl
  | sub | mul | div => rfl

/-- No instruction takes words from below the base of its frame. -/
theorem Issues.pops_le {i : Inst} {h : Nat} (hi : Issues m i h) : i.pops ≤ h := by
  cases hi with
  | push | load | jump => exact Nat.zero_le h
  | pack size enough => rwa [show (Inst.pack _).pops = _ from number_pack size]
  | call _ size enough => rwa [show (Inst.calll _ _).pops = _ from number_calll _ size]
  | operator o left enough => rwa [pops_operator]
  | store slot => exact Nat.one_le_of_lt slot
  | swap enough | pop enough | ret enough | jumpz _ enough | exit enough => exact enough

theorem operator_ne (o : BinOp) (left : Ty) {code : Opcode}
    (h : code ∉ [Opcode.scat, .iadd, .isub, .imul, .idiv]) : operator o left ≠ code := by
  rintro rfl
  apply h
  cases o with
  | add => rw [operator]; split <;> simp
  | sub | mul | div => simp [operator]

theorem Issues.load_lt {i : Inst} {h : Nat} (hi : Issues m i h) (hop : i.op = .sload) :
    i.number < h := by
  cases hi with
  | load slot => exact Nat.lt_of_le_of_lt (Operand.number_ofNat_le _) slot
  | operator o left _ => exact absurd hop (operator_ne o left (by decide))
  | _ => cases hop

theorem Issues.store_lt {i : Inst} {h : Nat} (hi : Issues m i h) (hop : i.op = .sstore) :
    i.number + 1 < h := by
  cases hi with
  | store slot =>
    exact Nat.lt_of_le_of_lt (Nat.add_le_add_right (Operand.number_ofNat_le _) 1) slot
  | operator o left _ => exact absurd hop (operator_ne o left (by decide))
  | _ => cases hop

/-- A call gives a function as many words as it has parameters. -/
theorem Issues.callee {i : Inst} {h : Nat} (hi : Issues m i h) (hop : i.op = .calll) :
    ∃ f ∈ m.funcs, i = .calll (funcLabel f.name) f.params.length ∧ i.number = f.params.length := by
  cases hi with
  | call callee size _ => exact ⟨_, callee, rfl, number_calll _ size⟩
  | operator o left _ => exact absurd hop (operator_ne o left (by decide))
  | _ => cases hop

theorem Issues.not_double {i : Inst} {h : Nat} (hi : Issues m i h) (d : Double) :
    .double d ∉ i.args := by
  cases hi <;> simp [Inst.pushi, Inst.pack, Inst.sload, Inst.sstore, Inst.plain, Inst.calll,
    Inst.jumpl, Inst.jumpzl, Inst.syscall]

abbrev Marks := List (String × Nat)

/-- The height climbs through the code, whose instructions are all issued at the heights where they
stand. Listed are the labels, and the labels to which the code jumps, with the heights that there
are behind the label and after the jump. -/
inductive Climbs (m : Module) : Nat → Code → Nat → Marks → Marks → Prop
  | nil (h : Nat) : Climbs m h [] h [] []
  | label {h h' : Nat} {name : String} {code : Code} {marks jumps : Marks}
      (rest : Climbs m ((m.entryHeight name).getD h) code h' marks jumps) :
      Climbs m h (.label name :: code) h' ((name, (m.entryHeight name).getD h) :: marks) jumps
  | inst {h h' : Nat} {i : Inst} {code : Code} {marks jumps : Marks} (issued : Issues m i h)
      (rest : Climbs m (i.next h) code h' marks jumps) :
      Climbs m h (.inst i :: code) h' marks (i.target?.toList.map (·, i.next h) ++ jumps)

namespace Climbs

variable {h h' h'' : Nat} {c d : Code} {marks marks' jumps jumps' : Marks}

theorem append (hc : Climbs m h c h' marks jumps) (hd : Climbs m h' d h'' marks' jumps') :
    Climbs m h (c ++ d) h'' (marks ++ marks') (jumps ++ jumps') := by
  induction hc with
  | nil h => exact hd
  | label _ ih => exact .label (ih hd)
  | inst issued _ ih =>
    rw [List.append_assoc]
    exact .inst issued (ih hd)

/-- A climb through two pieces of code is one through each. -/
theorem split (h₀ : Climbs m h (c ++ d) h'' marks jumps) : ∃ mid marks₁ marks₂ jumps₁ jumps₂,
    Climbs m h c mid marks₁ jumps₁ ∧ Climbs m mid d h'' marks₂ jumps₂ ∧
      marks = marks₁ ++ marks₂ ∧ jumps = jumps₁ ++ jumps₂ := by
  induction c generalizing h marks jumps with
  | nil => exact ⟨h, [], marks, [], jumps, .nil h, h₀, rfl, rfl⟩
  | cons e c ih =>
    cases h₀ with
    | label rest =>
      obtain ⟨mid, marks₁, marks₂, jumps₁, jumps₂, hc, hd, rfl, rfl⟩ := ih rest
      exact ⟨mid, _, marks₂, jumps₁, jumps₂, .label hc, hd, rfl, rfl⟩
    | inst issued rest =>
      obtain ⟨mid, marks₁, marks₂, jumps₁, jumps₂, hc, hd, rfl, rfl⟩ := ih rest
      exact ⟨mid, marks₁, marks₂, _, jumps₂, .inst issued hc, hd, rfl, by rw [List.append_assoc]⟩

theorem names (hc : Climbs m h c h' marks jumps) : marks.map Prod.fst = c.labelNames := by
  induction hc with
  | nil h => rfl
  | label _ ih => simp [Code.labelNames, ih]
  | inst _ _ ih => simpa [Code.labelNames] using ih

theorem label_mem (hc : Climbs m h c h' marks jumps) {p : String × Nat} (hp : p ∈ marks) :
    .label p.1 ∈ c := by
  induction hc with
  | nil h => cases hp
  | label _ ih =>
    rcases List.mem_cons.mp hp with rfl | hp
    · exact List.mem_cons_self
    · exact List.mem_cons_of_mem _ (ih hp)
  | inst _ _ ih => exact List.mem_cons_of_mem _ (ih hp)

theorem issued (hc : Climbs m h c h' marks jumps) {i : Inst} (hi : .inst i ∈ c) :
    ∃ height, Issues m i height := by
  induction hc with
  | nil h => simp at hi
  | label _ ih => exact ih (by simpa using hi)
  | inst issued _ ih =>
    rcases List.mem_cons.mp hi with heq | hi
    · cases heq
      exact ⟨_, issued⟩
    · exact ih hi

/-- Code without entries climbs by the same height wherever it stands. -/
theorem rise {g g' : Nat} {marks₀ jumps₀ : Marks} (hc : Climbs m h c h' marks jumps)
    (hentry : ∀ p ∈ marks, m.entryHeight p.1 = none) (hc' : Climbs m g c g' marks₀ jumps₀) :
    g' + h = g + h' := by
  induction hc generalizing g marks₀ jumps₀ with
  | nil h =>
    cases hc'
    rfl
  | label rest ih =>
    rw [List.forall_mem_cons] at hentry
    cases hc' with
    | label rest' =>
      simp only [hentry.1, Option.getD_none] at ih rest'
      exact ih hentry.2 rest'
  | @inst h h' i _ _ _ issued rest ih =>
    cases hc' with
    | inst issued' rest' =>
      have hsum := ih hentry rest'
      have hpops := issued.pops_le
      have hpops' := issued'.pops_le
      simp only [Inst.next] at hsum
      omega

end Climbs

def nextHeight (m : Module) (h : Nat) : Element → Nat
  | .label name => (m.entryHeight name).getD h
  | .inst i => i.next h

/-- The height in front of each element of a program. -/
def heightAt (m : Module) (code : Code) (k : Nat) : Nat := (code.take k).foldl (nextHeight m) 0

theorem Climbs.foldl {h h' : Nat} {c : Code} {marks jumps : Marks}
    (hc : Climbs m h c h' marks jumps) : c.foldl (nextHeight m) h = h' := by
  induction hc with
  | nil h => rfl
  | label _ ih => exact ih
  | inst _ _ ih => exact ih

section Positions

variable {code : Code} {top : Nat} {marks jumps : Marks}

/-- A piece of a program climbs from the height where it starts to the height where it ends. -/
theorem Climbs.piece (hcode : Climbs m 0 code top marks jumps) {front c back : Code}
    (heq : code = front ++ c ++ back) : ∃ marks' jumps',
      Climbs m (heightAt m code front.length) c (heightAt m code (front.length + c.length))
        marks' jumps' ∧ marks' ⊆ marks ∧ jumps' ⊆ jumps := by
  subst heq
  obtain ⟨mid, marks₁, marks₂, jumps₁, jumps₂, hpiece, -, rfl, rfl⟩ := hcode.split
  obtain ⟨low, marks₃, marks₄, jumps₃, jumps₄, hfront, hc, rfl, rfl⟩ := hpiece.split
  have hlow : heightAt m (front ++ c ++ back) front.length = low := by
    rw [heightAt, List.append_assoc, List.take_left' rfl, hfront.foldl]
  have hmid : heightAt m (front ++ c ++ back) (front.length + c.length) = mid := by
    rw [heightAt, List.take_left' List.length_append, hpiece.foldl]
  rw [hlow, hmid]
  exact ⟨marks₄, jumps₄, hc, by simp, by simp⟩

theorem Climbs.element (hcode : Climbs m 0 code top marks jumps) {k : Nat} {e : Element}
    (hk : code[k]? = some e) : ∃ marks' jumps',
      Climbs m (heightAt m code k) [e] (heightAt m code (k + 1)) marks' jumps' ∧
        marks' ⊆ marks ∧ jumps' ⊆ jumps := by
  obtain ⟨hlt, rfl⟩ := List.getElem?_eq_some_iff.mp hk
  have heq : code = code.take k ++ [code[k]] ++ code.drop (k + 1) := by
    simp
  have hpiece := hcode.piece heq
  rwa [List.length_take_of_le hlt.le] at hpiece

theorem Climbs.at_inst (hcode : Climbs m 0 code top marks jumps) {k : Nat} {i : Inst}
    (hk : code[k]? = some (.inst i)) :
    Issues m i (heightAt m code k) ∧ heightAt m code (k + 1) = i.next (heightAt m code k) ∧
      ∀ name, i.target? = some name → (name, i.next (heightAt m code k)) ∈ jumps := by
  obtain ⟨marks', jumps', hone, -, hjumps⟩ := hcode.element hk
  have hnext := hone.foldl
  cases hone with
  | inst issued _ =>
    refine ⟨issued, hnext.symm, fun name hname => hjumps ?_⟩
    simp [hname]

theorem Climbs.at_label (hcode : Climbs m 0 code top marks jumps) {k : Nat} {name : String}
    (hk : code[k]? = some (.label name)) :
    heightAt m code (k + 1) = (m.entryHeight name).getD (heightAt m code k) ∧
      (name, heightAt m code (k + 1)) ∈ marks := by
  obtain ⟨marks', jumps', hone, hmarks, -⟩ := hcode.element hk
  have hnext := hone.foldl
  refine ⟨hnext.symm, hmarks ?_⟩
  rw [← hnext]
  cases hone with
  | label _ => exact List.mem_cons_self

end Positions

end Lowering
end EdeLang
