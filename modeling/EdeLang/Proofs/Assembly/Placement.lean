import EdeLang.Proofs.Bytecode.Codec

/-!
# Where symbolic code stands in a program

Code whose labels differ from each other and whose operands resolve can be assembled. Each piece
of it is then placed: its labels have the offset at which they stand, and its instructions are
listed at the offsets that follow.
-/

namespace EdeLang

namespace Code

def labelNames : Code → List String
  | [] => []
  | .label name :: code => name :: labelNames code
  | .inst _ :: code => labelNames code

def extent : Code → Nat
  | [] => 0
  | .label _ :: code => extent code
  | .inst i :: code => i.size + extent code

def labelTable (offset : Nat) : Code → List (String × Nat)
  | [] => []
  | .label name :: code => (name, offset) :: labelTable offset code
  | .inst i :: code => labelTable (offset + i.size) code

@[simp]
theorem labelNames_append (c d : Code) : labelNames (c ++ d) = labelNames c ++ labelNames d := by
  induction c with
  | nil => rfl
  | cons e c ih => cases e <;> simp [labelNames, ih]

@[simp]
theorem extent_append (c d : Code) : extent (c ++ d) = extent c + extent d := by
  induction c with
  | nil => simp [extent]
  | cons e c ih => cases e <;> simp [extent, ih, Nat.add_assoc]

theorem labelTable_append (offset : Nat) (c d : Code) :
    labelTable offset (c ++ d) = labelTable offset c ++ labelTable (offset + extent c) d := by
  induction c generalizing offset with
  | nil => rfl
  | cons e c ih => cases e <;> simp [labelTable, extent, ih, Nat.add_assoc]

theorem labelTable_map_fst (offset : Nat) (c : Code) :
    (labelTable offset c).map Prod.fst = labelNames c := by
  induction c generalizing offset with
  | nil => rfl
  | cons e c ih => cases e <;> simp [labelTable, labelNames, ih]

theorem insert_fresh (labels : Labels) (name : String) (offset : Nat)
    (h : name ∉ labels.entries.map Prod.fst) :
    labels.insert name offset = (⟨labels.entries ++ [(name, offset)]⟩, .ok ()) := by
  have hany : labels.entries.any (·.1 == name) = false := by
    rw [List.any_eq_false]
    intro e he heq
    exact h (List.mem_map.mpr ⟨e, he, by simpa using heq⟩)
  simp [Labels.insert, Labels.bind, hany]

/-- The layout of code with different labels extends the table by them. -/
theorem layoutFrom_eq (code : Code) (labels : Labels) (offset : Nat)
    (h : (labels.entries.map Prod.fst ++ code.labelNames).Nodup) :
    code.layoutFrom labels offset = .ok ⟨labels.entries ++ labelTable offset code⟩ := by
  induction code generalizing labels offset with
  | nil => simp [layoutFrom, labelTable]
  | cons e code ih =>
    cases e with
    | label name =>
      have hfresh : name ∉ labels.entries.map Prod.fst := by
        intro hmem
        exact (List.nodup_append.mp h).2.2 name hmem name (by simp [labelNames]) rfl
      rw [layoutFrom, insert_fresh labels name offset hfresh]
      simp only
      rw [ih _ _ (by simpa [labelNames] using h)]
      simp [labelTable]
    | inst i =>
      rw [layoutFrom, ih _ _ (by simpa [labelNames] using h)]
      simp [labelTable]

theorem layout_eq (code : Code) (h : code.labelNames.Nodup) :
    code.layout = .ok ⟨labelTable 0 code⟩ := by
  rw [layout, layoutFrom_eq code .empty 0 (by simpa [Labels.empty] using h)]
  simp [Labels.empty]

theorem get_of_mem {entries : List (String × Nat)} {name : String} {offset : Nat}
    (hnd : (entries.map Prod.fst).Nodup) (hmem : (name, offset) ∈ entries) :
    Labels.get ⟨entries⟩ name = .ok offset := by
  have hlookup : entries.lookup name = some offset := by
    induction entries with
    | nil => simp at hmem
    | cons e entries ih =>
      obtain ⟨m, o⟩ := e
      simp only [List.map_cons, List.nodup_cons] at hnd
      rcases List.mem_cons.mp hmem with heq | htail
      · obtain ⟨rfl, rfl⟩ := Prod.mk.inj heq
        simp
      · have hne : name ≠ m := by
          intro heq
          exact hnd.1 (List.mem_map.mpr ⟨_, htail, heq⟩)
        rw [List.lookup_cons, beq_false_of_ne hne]
        exact ih hnd.2 htail
  simp [Labels.get, Labels.find?, hlookup]

end Code

namespace Inst

theorem resolve_op {labels : Labels} {i : Inst} {j : Instruction}
    (h : i.resolve labels = .ok j) : j.op = i.op.concrete := by
  have hop : ∀ (op : Opcode) (fields : List Field),
      Instruction.ofFields? op fields = some j → j.op = op := by
    intro op fields hfields
    unfold Instruction.ofFields? at hfields
    split at hfields <;> simp_all [Instruction.op]
    all_goals subst hfields; rfl
  unfold resolve at h
  cases hf : Operand.fields? labels i.args i.op.args with
  | error e => simp [hf, bind, Except.bind] at h
  | ok fields? =>
    cases fields? with
    | none => simp [hf, bind, Except.bind] at h
    | some fields =>
      cases hi : Instruction.ofFields? i.op.concrete fields with
      | none => simp [hf, hi, bind, Except.bind] at h
      | some k =>
        simp only [hf, hi, bind, Except.bind, Except.ok.injEq] at h
        subst h
        exact hop _ _ hi

theorem resolve_size {labels : Labels} {i : Inst} {j : Instruction}
    (h : i.resolve labels = .ok j) : j.size = i.size := by
  have hconcrete : ∀ op : Opcode, op.concrete.size = op.size := by
    intro op
    cases op <;> rfl
  rw [Instruction.size, resolve_op h, hconcrete, size]

variable (labels : Labels)

@[simp] theorem resolve_pop : (plain .pop).resolve labels = .ok .pop := rfl
@[simp] theorem resolve_swap : (plain .swap).resolve labels = .ok .swap := rfl
@[simp] theorem resolve_iadd : (plain .iadd).resolve labels = .ok .iadd := rfl
@[simp] theorem resolve_isub : (plain .isub).resolve labels = .ok .isub := rfl
@[simp] theorem resolve_imul : (plain .imul).resolve labels = .ok .imul := rfl
@[simp] theorem resolve_idiv : (plain .idiv).resolve labels = .ok .idiv := rfl
@[simp] theorem resolve_scat : (plain .scat).resolve labels = .ok .scat := rfl
@[simp] theorem resolve_ret : (plain .ret).resolve labels = .ok .ret := rfl

@[simp]
theorem resolve_pushi (v : Int64) : (pushi v).resolve labels = .ok (.push (.ofInt v)) := rfl

@[simp]
theorem resolve_sload (k : Nat) :
    (sload k).resolve labels = .ok (.sload (.ofInt (Int64.ofNat k))) := rfl

@[simp]
theorem resolve_sstore (k : Nat) :
    (sstore k).resolve labels = .ok (.sstore (.ofInt (Int64.ofNat k))) := rfl

@[simp]
theorem resolve_pack (n : Nat) :
    (pack n).resolve labels = .ok (.pack (.ofInt (Int64.ofNat n))) := rfl

@[simp]
theorem resolve_syscall (code : Syscall) :
    (syscall code).resolve labels = .ok (.syscall code) := rfl

variable {labels}

theorem resolve_jumpl {name : String} {offset : Nat} (h : labels.get name = .ok offset) :
    (jumpl name).resolve labels = .ok (.jump (.ofNat offset)) := by
  simp [resolve, jumpl, Opcode.args, Operand.fields?, Operand.field?, h, bind, Except.bind,
    pure, Except.pure, Opcode.concrete, Instruction.ofFields?]

theorem resolve_jumpzl {name : String} {offset : Nat} (h : labels.get name = .ok offset) :
    (jumpzl name).resolve labels = .ok (.jumpz (.ofNat offset)) := by
  simp [resolve, jumpzl, Opcode.args, Operand.fields?, Operand.field?, h, bind, Except.bind,
    pure, Except.pure, Opcode.concrete, Instruction.ofFields?]

theorem resolve_calll {name : String} {offset : Nat} (n : Nat)
    (h : labels.get name = .ok offset) :
    (calll name n).resolve labels =
      .ok (.call (.ofNat offset) (.ofInt (Int64.ofNat n))) := by
  simp [resolve, calll, Opcode.args, Operand.fields?, Operand.field?, h, bind, Except.bind,
    pure, Except.pure, Opcode.concrete, Instruction.ofFields?]

end Inst

/-- Every instruction of the code has an executable form. -/
def Code.Resolvable (labels : Labels) (code : Code) : Prop :=
  ∀ i, Element.inst i ∈ code → ∃ j, i.resolve labels = .ok j

namespace Binary

/-- Decoding the whole program finds the instruction at the offset. -/
def Lists (b : Binary) (offset : Nat) (i : Instruction) : Prop :=
  ∃ l, Instruction.decodeAll b.bytes = .ok l ∧ (offset, i) ∈ l

/-- The code stands in the program at an offset, with an instruction behind it. -/
def Placed (b : Binary) : Nat → Code → Prop
  | offset, [] => ∃ i, b.Lists offset i
  | offset, .label name :: code => b.labels.get name = .ok offset ∧ Placed b offset code
  | offset, .inst i :: code =>
    (∃ j, i.resolve b.labels = .ok j ∧ b.Lists offset j) ∧ Placed b (offset + i.size) code

variable {b : Binary}

theorem Placed.lists {offset : Nat} {code : Code} (h : b.Placed offset code) :
    ∃ i, b.Lists offset i := by
  induction code generalizing offset with
  | nil => exact h
  | cons e code ih =>
    cases e with
    | label name => exact ih h.2
    | inst i =>
      obtain ⟨⟨j, _, hj⟩, _⟩ := h
      exact ⟨j, hj⟩

theorem placed_append {offset : Nat} {c d : Code} (h : b.Placed offset (c ++ d)) :
    b.Placed offset c ∧ b.Placed (offset + c.extent) d := by
  induction c generalizing offset with
  | nil => exact ⟨Placed.lists h, by simpa [Code.extent] using h⟩
  | cons e c ih =>
    cases e with
    | label name =>
      obtain ⟨hname, hrest⟩ := h
      obtain ⟨hc, hd⟩ := ih hrest
      exact ⟨⟨hname, hc⟩, hd⟩
    | inst i =>
      obtain ⟨hi, hrest⟩ := h
      obtain ⟨hc, hd⟩ := ih hrest
      refine ⟨⟨hi, hc⟩, ?_⟩
      rw [Code.extent, ← Nat.add_assoc]
      exact hd

theorem Lists.lt {offset : Nat} {i : Instruction} {is : List Instruction}
    (hbytes : b.bytes = Instruction.encodeAll is) (h : b.Lists offset i) :
    offset < b.bytes.size := by
  obtain ⟨l, hl, hmem⟩ := h
  rw [hbytes, Instruction.decodeAll_encodeAll] at hl
  obtain rfl := Except.ok.inj hl
  have hle := Instruction.mem_listing_lt hmem
  have hpos := i.size_pos
  rw [hbytes, Instruction.encodeAll_size]
  omega

end Binary

namespace Code

variable {labels : Labels}

theorem resolveFrom_ok (code : Code) (index : Nat) (h : code.Resolvable labels) :
    ∃ is, code.resolveFrom labels index = .ok is := by
  induction code generalizing index with
  | nil => exact ⟨[], rfl⟩
  | cons e code ih =>
    obtain ⟨is, his⟩ := ih (index + 1) fun i hi => h i (List.mem_cons_of_mem _ hi)
    cases e with
    | label name => exact ⟨is, his⟩
    | inst i =>
      obtain ⟨j, hj⟩ := h i (by simp)
      exact ⟨j :: is, by simp [resolveFrom, hj, his, bind, Except.bind, pure, Except.pure]⟩

theorem resolveFrom_inst {i : Inst} {code : Code} {index : Nat} {is : List Instruction}
    (h : resolveFrom labels index (.inst i :: code) = .ok is) :
    ∃ j js, is = j :: js ∧ i.resolve labels = .ok j ∧
      resolveFrom labels (index + 1) code = .ok js := by
  cases hi : i.resolve labels with
  | error e => simp [resolveFrom, hi] at h
  | ok j =>
    cases hrest : resolveFrom labels (index + 1) code with
    | error e => simp [resolveFrom, hi, hrest, bind, Except.bind] at h
    | ok js =>
      refine ⟨j, js, ?_, rfl, rfl⟩
      simpa [resolveFrom, hi, hrest, bind, Except.bind, pure, Except.pure] using h.symm

theorem resolveFrom_append {c d : Code} {index : Nat} {is js : List Instruction}
    (hc : c.resolveFrom labels index = .ok is)
    (hd : d.resolveFrom labels (index + c.length) = .ok js) :
    resolveFrom labels index (c ++ d) = .ok (is ++ js) := by
  induction c generalizing index is with
  | nil =>
    obtain rfl : [] = is := by simpa [resolveFrom] using hc
    simpa using hd
  | cons e c ih =>
    have hd' : d.resolveFrom labels (index + 1 + c.length) = .ok js := by
      simpa [Nat.add_comm, Nat.add_left_comm, Nat.add_assoc] using hd
    cases e with
    | label name => exact ih hc hd'
    | inst i =>
      obtain ⟨j, ks, rfl, hi, hrest⟩ := resolveFrom_inst hc
      simp [resolveFrom, hi, ih hrest hd', bind, Except.bind, pure, Except.pure]

theorem sizeAll_of_resolveFrom {code : Code} {index : Nat} {is : List Instruction}
    (h : code.resolveFrom labels index = .ok is) : Instruction.sizeAll is = code.extent := by
  induction code generalizing index is with
  | nil =>
    obtain rfl : [] = is := by simpa [resolveFrom] using h
    rfl
  | cons e code ih =>
    cases e with
    | label name => exact ih h
    | inst i =>
      obtain ⟨j, js, rfl, hi, hrest⟩ := resolveFrom_inst h
      rw [Instruction.sizeAll_cons, ih hrest, Inst.resolve_size hi, extent]

/-- Code whose labels and instructions are found in the program is placed there. -/
theorem placed_of_resolveFrom {b : Binary} {code : Code} {index offset : Nat}
    {is : List Instruction} (h : code.resolveFrom b.labels index = .ok is)
    (hlabels : ∀ e ∈ labelTable offset code, b.labels.get e.1 = .ok e.2)
    (hlist : ∀ e ∈ Instruction.listing offset is, b.Lists e.1 e.2)
    (hnext : ∃ i, b.Lists (offset + Instruction.sizeAll is) i) : b.Placed offset code := by
  induction code generalizing index offset is with
  | nil =>
    obtain rfl : [] = is := by simpa [resolveFrom] using h
    exact hnext
  | cons e code ih =>
    cases e with
    | label name =>
      refine ⟨hlabels (name, offset) (by simp [labelTable]), ?_⟩
      exact ih h (fun e he => hlabels e (by simp [labelTable, he])) hlist hnext
    | inst i =>
      obtain ⟨j, js, rfl, hi, hrest⟩ := resolveFrom_inst h
      have hsize := Inst.resolve_size hi
      refine ⟨⟨j, hi, hlist (offset, j) (by simp [Instruction.listing])⟩, ?_⟩
      refine ih hrest (fun e he => hlabels e he) (fun e he => hlist e ?_) ?_
      · rw [← hsize] at he
        simp [Instruction.listing, he]
      · rw [← hsize, Nat.add_assoc, ← Instruction.sizeAll_cons]
        exact hnext

/-- Code with different labels and resolvable operands that ends in an instruction is assembled.
Everything before that instruction is placed from the start of the program. -/
theorem assemble_placed {code body : Code} {last : Inst} (hcode : code = body ++ [.inst last])
    (hnd : code.labelNames.Nodup) (hres : code.Resolvable ⟨labelTable 0 code⟩) :
    ∃ b is j, code.assemble = .ok b ∧ b.labels = ⟨labelTable 0 code⟩ ∧
      b.bytes = Instruction.encodeAll (is ++ [j]) ∧ last.resolve b.labels = .ok j ∧
      Instruction.sizeAll is = body.extent ∧ b.Placed 0 body := by
  obtain ⟨is, his⟩ := resolveFrom_ok body 0
    fun i hi => hres i (by rw [hcode]; exact List.mem_append_left _ hi)
  obtain ⟨j, hj⟩ := hres last (by simp [hcode])
  have hlast : resolveFrom ⟨labelTable 0 code⟩ (0 + body.length) [.inst last] = .ok [j] := by
    simp [resolveFrom, hj, bind, Except.bind, pure, Except.pure]
  have hall := resolveFrom_append his hlast
  rw [← hcode] at hall
  have hdecode := Instruction.decodeAll_encodeAll (is ++ [j])
  refine ⟨⟨Instruction.encodeAll (is ++ [j]), ⟨labelTable 0 code⟩⟩, is, j, ?_, rfl, rfl, hj,
    sizeAll_of_resolveFrom his, ?_⟩
  · simp [assemble, assembleLocated, layout_eq _ hnd, hall]
  · apply placed_of_resolveFrom his
    · intro e he
      apply get_of_mem
      · rw [labelTable_map_fst]
        exact hnd
      · rw [hcode, labelTable_append]
        exact List.mem_append_left _ he
    · intro e he
      refine ⟨_, hdecode, ?_⟩
      rw [Instruction.listing_append]
      exact List.mem_append_left _ he
    · refine ⟨j, _, hdecode, ?_⟩
      rw [Instruction.listing_append]
      exact List.mem_append_right _ (by simp [Instruction.listing])

end Code
end EdeLang
