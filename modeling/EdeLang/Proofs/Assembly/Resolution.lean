import EdeLang.Proofs.Assembly.Placement
import EdeLang.Proofs.Bytecode.Decoding
import EdeLang.Proofs.Double.Nearest

/-!
# What assembled code says

Code with well-formed instructions is assembled exactly if its labels differ from each other and
it defines the labels that it names. The program then lists the instructions of the code in
order, each behind the bytes of those before it, and a label stands for the bytes before it.
-/

namespace EdeLang

theorem Inst.make_eq_ok_iff {i : Inst} : Inst.make i.op i.args = .ok i ↔ i.wellFormed := by
  by_cases h : i.wellFormed
  · simp [make, h]
  · simp [make, h]

namespace Code

def insts : Code → List Inst
  | [] => []
  | .label _ :: code => insts code
  | .inst i :: code => i :: insts code

/-- An instruction of the code has the label as an operand. -/
def Names (code : Code) (name : String) : Prop :=
  ∃ i, Element.inst i ∈ code ∧ Operand.label name ∈ i.args

/-- The label stands behind this many bytes of code. -/
def Defines (code : Code) (name : String) (offset : Nat) : Prop :=
  ∃ before after, code = before ++ .label name :: after ∧ offset = extent before

end Code

/-- The field that an operand of a kind has in the program assembled from code: a label is
replaced by the bytes before it, and an integer in the place of a double by the double nearest
to it. -/
def Operand.Denotes (code : Code) : Operand → Arg → Field → Prop
  | .int v, .double, field => ∃ d, field = .word (.ofDouble d) ∧ Double.Rounds v.toInt d
  | .int v, _, field => field = .word (.ofInt v)
  | .double d, _, field => field = .word (.ofDouble d)
  | .label name, _, field => ∃ w, field = .word w ∧ code.Defines name w.toNat
  | .syscall c, _, field => field = .syscall c

/-- The executable form of an instruction of the code: its concrete opcode and, for each operand,
the field that it denotes. -/
def Inst.Denotes (code : Code) (i : Inst) (j : Instruction) : Prop :=
  j.op = i.op.concrete ∧
    List.Forall₂ (fun (a : Operand × Arg) field => a.1.Denotes code a.2 field)
      (i.args.zip i.op.args) j.fields

namespace Code

theorem length_labelTable (offset : Nat) (code : Code) :
    (labelTable offset code).length = code.labelNames.length := by
  rw [← labelTable_map_fst offset code, List.length_map]

theorem mem_labelTable {offset at' : Nat} {name : String} {code : Code} :
    (name, at') ∈ labelTable offset code ↔ ∃ n, code.Defines name n ∧ at' = offset + n := by
  constructor
  · intro h
    induction code generalizing offset with
    | nil => simp [labelTable] at h
    | cons e code ih =>
      cases e with
      | label m =>
        rw [labelTable, List.mem_cons] at h
        rcases h with heq | htail
        · obtain ⟨rfl, rfl⟩ := Prod.mk.inj heq
          exact ⟨0, ⟨[], code, rfl, rfl⟩, rfl⟩
        · obtain ⟨n, ⟨before, after, rfl, rfl⟩, rfl⟩ := ih htail
          exact ⟨extent before, ⟨.label m :: before, after, rfl, rfl⟩, rfl⟩
      | inst i =>
        obtain ⟨n, ⟨before, after, rfl, rfl⟩, rfl⟩ := ih h
        exact ⟨i.size + extent before, ⟨.inst i :: before, after, rfl, rfl⟩, by omega⟩
  · rintro ⟨n, ⟨before, after, rfl, rfl⟩, rfl⟩
    rw [labelTable_append]
    exact List.mem_append_right _ (by simp [labelTable])

theorem insert_used {labels : Labels} {name : String} (offset : Nat)
    (h : name ∈ labels.entries.map Prod.fst) :
    (labels.insert name offset).2 = .error (.redefinedLabel name) := by
  have hany : labels.entries.any (·.1 == name) = true := by
    obtain ⟨e, he, rfl⟩ := List.mem_map.mp h
    exact List.any_eq_true.mpr ⟨e, he, by simp⟩
  simp [Labels.insert, hany]

private theorem nodup_of_layoutFrom {code : Code} {labels labels' : Labels} {offset : Nat}
    (hnd : (labels.entries.map Prod.fst).Nodup)
    (h : code.layoutFrom labels offset = .ok labels') :
    (labels.entries.map Prod.fst ++ code.labelNames).Nodup := by
  induction code generalizing labels offset with
  | nil => simpa [labelNames] using hnd
  | cons e code ih =>
    cases e with
    | inst i => exact ih hnd h
    | label name =>
      by_cases hused : name ∈ labels.entries.map Prod.fst
      · have herror := insert_used offset hused
        rw [layoutFrom] at h
        split at h
        · next heq => rw [heq] at herror; cases herror
        · cases h
      · rw [layoutFrom, insert_fresh labels name offset hused] at h
        have hnd' : ((labels.entries ++ [(name, offset)]).map Prod.fst).Nodup := by
          rw [List.map_append, List.nodup_append]
          refine ⟨hnd, by simp, ?_⟩
          intro m hm k hk heq
          simp only [List.map_cons, List.map_nil, List.mem_singleton] at hk
          exact hused (by rw [← hk, ← heq]; exact hm)
        have hrest := ih hnd' h
        simpa [labelNames] using hrest

/-- The layout of code exists exactly if its labels differ from each other. -/
theorem layout_eq_ok_iff {code : Code} {labels : Labels} :
    code.layout = .ok labels ↔ code.labelNames.Nodup ∧ labels = ⟨labelTable 0 code⟩ := by
  constructor
  · intro h
    have hnd : code.labelNames.Nodup := by
      simpa [Labels.empty] using nodup_of_layoutFrom (by simp [Labels.empty]) h
    rw [layout_eq code hnd] at h
    exact ⟨hnd, (Except.ok.inj h).symm⟩
  · rintro ⟨hnd, rfl⟩
    exact layout_eq code hnd

theorem mem_of_get {labels : Labels} {name : String} {offset : Nat}
    (h : labels.get name = .ok offset) : (name, offset) ∈ labels.entries := by
  unfold Labels.get at h
  split at h
  · next found hfound =>
    cases h
    obtain ⟨before, after, heq, _⟩ := List.lookup_eq_some_iff.mp hfound
    rw [heq]
    simp
  · cases h

/-- The label table of code finds the labels that the code defines, where they stand. -/
theorem get_labelTable {code : Code} (hnd : code.labelNames.Nodup) {name : String} {offset : Nat} :
    Labels.get ⟨labelTable 0 code⟩ name = .ok offset ↔ code.Defines name offset := by
  have hmem : (name, offset) ∈ labelTable 0 code ↔ code.Defines name offset := by
    rw [mem_labelTable]
    simp
  constructor
  · intro h
    exact hmem.mp (mem_of_get h)
  · intro h
    apply get_of_mem _ (hmem.mpr h)
    rw [labelTable_map_fst]
    exact hnd

theorem mem_labelNames {code : Code} {name : String} :
    name ∈ code.labelNames ↔ ∃ offset, code.Defines name offset := by
  rw [← labelTable_map_fst 0 code, List.mem_map]
  constructor
  · rintro ⟨⟨m, offset⟩, he, rfl⟩
    obtain ⟨n, hn, _⟩ := mem_labelTable.mp he
    exact ⟨n, hn⟩
  · rintro ⟨offset, h⟩
    exact ⟨(name, 0 + offset), mem_labelTable.mpr ⟨offset, h, rfl⟩, rfl⟩

theorem Defines.le {code : Code} {name : String} {offset : Nat} (h : code.Defines name offset) :
    offset ≤ code.extent := by
  obtain ⟨before, after, rfl, rfl⟩ := h
  rw [extent_append]
  omega

end Code

namespace Operand

variable {labels : Labels}

theorem field?_of_fits {a : Operand} {kind : Arg} (hfits : a.fits kind)
    (hfound : ∀ name, a = .label name → ∃ offset, labels.get name = .ok offset) :
    ∃ field, a.field? labels kind = .ok (some field) ∧ field.Matches kind := by
  cases a with
  | label name =>
    obtain ⟨offset, hoffset⟩ := hfound name rfl
    cases kind <;> simp_all [fits, field?, Field.Matches]
  | int v => cases kind <;> simp_all [fits, field?, Field.Matches]
  | double d => cases kind <;> simp_all [fits, field?, Field.Matches]
  | syscall c => cases kind <;> simp_all [fits, field?, Field.Matches]

theorem get_of_field? {name : String} {kind : Arg} {field : Field}
    (h : (label name).field? labels kind = .ok (some field)) :
    ∃ offset, labels.get name = .ok offset ∧ field = .word (.ofNat offset) := by
  cases hget : labels.get name with
  | error e => cases kind <;> simp [field?, hget] at h
  | ok offset => cases kind <;> simp_all [field?]

theorem fields?_cons {a : Operand} {as : List Operand} {kind : Arg} {kinds : List Arg}
    {fields : List Field} :
    fields? labels (a :: as) (kind :: kinds) = .ok (some fields) ↔
      ∃ field rest, fields = field :: rest ∧ a.field? labels kind = .ok (some field) ∧
        fields? labels as kinds = .ok (some rest) := by
  rw [fields?]
  cases ha : a.field? labels kind with
  | error e => simp [bind, Except.bind]
  | ok field? =>
    cases field? with
    | none => simp [bind, Except.bind, pure, Except.pure]
    | some field =>
      cases has : fields? labels as kinds with
      | error e => simp [bind, Except.bind]
      | ok rest? =>
        cases rest? with
        | none => simp [bind, Except.bind, pure, Except.pure]
        | some rest => simp [bind, Except.bind, pure, Except.pure, eq_comm]

theorem fields?_of_fitAll {as : List Operand} {kinds : List Arg} (hfits : fitAll as kinds)
    (hfound : ∀ name, label name ∈ as → ∃ offset, labels.get name = .ok offset) :
    ∃ fields, fields? labels as kinds = .ok (some fields) ∧
      List.Forall₂ Field.Matches fields kinds := by
  induction as generalizing kinds with
  | nil =>
    cases kinds with
    | nil => exact ⟨[], rfl, .nil⟩
    | cons kind kinds => simp [fitAll] at hfits
  | cons a as ih =>
    cases kinds with
    | nil => simp [fitAll] at hfits
    | cons kind kinds =>
      rw [fitAll, Bool.and_eq_true] at hfits
      obtain ⟨field, hfield, hmatch⟩ := field?_of_fits hfits.1
        fun name hname => hfound name (by simp [hname])
      obtain ⟨rest, hrest, hall⟩ := ih hfits.2
        fun name hname => hfound name (List.mem_cons_of_mem _ hname)
      exact ⟨field :: rest, fields?_cons.mpr ⟨field, rest, rfl, hfield, hrest⟩, .cons hmatch hall⟩

theorem forall₂_of_fields? {as : List Operand} {kinds : List Arg} {fields : List Field}
    (h : fields? labels as kinds = .ok (some fields)) :
    List.Forall₂ (fun (a : Operand × Arg) field => a.1.field? labels a.2 = .ok (some field))
      (as.zip kinds) fields := by
  induction as generalizing kinds fields with
  | nil =>
    cases kinds with
    | nil => cases h; exact .nil
    | cons kind kinds => cases h
  | cons a as ih =>
    cases kinds with
    | nil => cases h
    | cons kind kinds =>
      obtain ⟨field, rest, rfl, ha, has⟩ := fields?_cons.mp h
      exact .cons ha (ih has)

theorem get_of_fields? {as : List Operand} {kinds : List Arg} {fields : List Field}
    (h : fields? labels as kinds = .ok (some fields)) {name : String} (hname : label name ∈ as) :
    ∃ offset, labels.get name = .ok offset := by
  induction as generalizing kinds fields with
  | nil => cases hname
  | cons a as ih =>
    cases kinds with
    | nil => cases h
    | cons kind kinds =>
      obtain ⟨field, rest, rfl, ha, has⟩ := fields?_cons.mp h
      rcases List.mem_cons.mp hname with rfl | htail
      · obtain ⟨offset, hoffset, _⟩ := get_of_field? ha
        exact ⟨offset, hoffset⟩
      · exact ih has htail

/-- A field that is taken from the label table of code is the one that is denoted there. -/
theorem denotes_of_field? {code : Code} (hnd : code.labelNames.Nodup)
    (hsize : code.extent < 2 ^ 63) {a : Operand} {kind : Arg} {field : Field}
    (h : a.field? ⟨code.labelTable 0⟩ kind = .ok (some field)) : a.Denotes code kind field := by
  cases a with
  | label name =>
    obtain ⟨offset, hget, rfl⟩ := get_of_field? h
    have hdef := (Code.get_labelTable hnd).mp hget
    have hle := hdef.le
    refine ⟨.ofNat offset, rfl, ?_⟩
    have hlt : offset < 2 ^ 64 := by omega
    have hword : (Word.ofNat offset).toNat = offset := UInt64.toNat_ofNat_of_lt hlt
    rw [hword]
    exact hdef
  | int v =>
    cases kind with
    | double =>
      obtain rfl : .word (.ofDouble (Double.ofInt v.toInt)) = field := by simpa [field?] using h
      exact ⟨_, rfl, Double.rounds_ofInt v⟩
    | _ => simp_all [field?, Denotes]
  | double d => cases kind <;> simp_all [field?, Denotes]
  | syscall c => cases kind <;> simp_all [field?, Denotes]

end Operand

namespace Inst

variable {labels : Labels}

theorem resolve_eq_ok_iff {i : Inst} {j : Instruction} :
    i.resolve labels = .ok j ↔
      Operand.fields? labels i.args i.op.args = .ok (some j.fields) ∧ j.op = i.op.concrete := by
  unfold resolve
  cases hfields : Operand.fields? labels i.args i.op.args with
  | error e => simp [bind, Except.bind]
  | ok fields? =>
    cases fields? with
    | none => simp [bind, Except.bind]
    | some fields =>
      have hof : Instruction.ofFields? i.op.concrete fields = some j ↔
          fields = j.fields ∧ j.op = i.op.concrete := by
        constructor
        · intro h
          obtain ⟨hop, hf⟩ := Instruction.ofFields?_eq_some h
          exact ⟨hf.symm, hop⟩
        · rintro ⟨rfl, hop⟩
          rw [← hop]
          exact Instruction.ofFields?_fields j
      cases hi : Instruction.ofFields? i.op.concrete fields with
      | none => simp_all [bind, Except.bind]
      | some k => simp_all [bind, Except.bind]

private theorem ofFields?_of_matches {op : Opcode} {fields : List Field}
    (h : List.Forall₂ Field.Matches fields op.args) :
    ∃ j, Instruction.ofFields? op.concrete fields = some j := by
  -- An opcode takes no operand, one, or the label and the count of a call.
  cases op with
  | push | sload | sstore | jump | jumpz | jumpnz | pack | pushi | pushd | jumpl | jumpzl
  | jumpnzl =>
    obtain ⟨f, _, hf, hrest, rfl⟩ := List.forall₂_cons_right_iff.mp h
    obtain rfl := List.forall₂_nil_right_iff.mp hrest
    cases f with
    | word w => exact ⟨_, rfl⟩
    | syscall c => exact hf.elim
  | syscall =>
    obtain ⟨f, _, hf, hrest, rfl⟩ := List.forall₂_cons_right_iff.mp h
    obtain rfl := List.forall₂_nil_right_iff.mp hrest
    cases f with
    | word w => exact hf.elim
    | syscall c => exact ⟨_, rfl⟩
  | call | calll =>
    obtain ⟨f, _, hf, htail, rfl⟩ := List.forall₂_cons_right_iff.mp h
    obtain ⟨g, _, hg, hrest, rfl⟩ := List.forall₂_cons_right_iff.mp htail
    obtain rfl := List.forall₂_nil_right_iff.mp hrest
    cases f with
    | word w =>
      cases g with
      | word v => exact ⟨_, rfl⟩
      | syscall c => exact hg.elim
    | syscall c => exact hf.elim
  | _ =>
    obtain rfl := List.forall₂_nil_right_iff.mp h
    exact ⟨_, rfl⟩

theorem exists_resolve_iff {i : Inst} (hi : i.wellFormed) :
    (∃ j, i.resolve labels = .ok j) ↔
      ∀ name, .label name ∈ i.args → ∃ offset, labels.get name = .ok offset := by
  constructor
  · rintro ⟨j, hj⟩ name hname
    exact Operand.get_of_fields? (resolve_eq_ok_iff.mp hj).1 hname
  · intro hfound
    obtain ⟨fields, hfields, hmatch⟩ := Operand.fields?_of_fitAll hi hfound
    obtain ⟨j, hj⟩ := ofFields?_of_matches hmatch
    obtain ⟨hop, rfl⟩ := Instruction.ofFields?_eq_some hj
    exact ⟨j, resolve_eq_ok_iff.mpr ⟨hfields, hop⟩⟩

theorem denotes_of_resolve {code : Code} (hnd : code.labelNames.Nodup)
    (hsize : code.extent < 2 ^ 63) {i : Inst} {j : Instruction}
    (h : i.resolve ⟨code.labelTable 0⟩ = .ok j) : i.Denotes code j := by
  obtain ⟨hfields, hop⟩ := resolve_eq_ok_iff.mp h
  refine ⟨hop, (Operand.forall₂_of_fields? hfields).imp ?_⟩
  intro a field ha
  exact Operand.denotes_of_field? hnd hsize ha

end Inst

namespace Code

variable {labels : Labels}

@[simp]
theorem insts_append (c d : Code) : insts (c ++ d) = insts c ++ insts d := by
  induction c with
  | nil => rfl
  | cons e c ih => cases e <;> simp [insts, ih]

theorem resolveFrom_eq_ok_iff {code : Code} {index : Nat} {is : List Instruction} :
    code.resolveFrom labels index = .ok is ↔
      List.Forall₂ (fun i j => i.resolve labels = .ok j) code.insts is := by
  induction code generalizing index is with
  | nil => simp [resolveFrom, insts, eq_comm]
  | cons e code ih =>
    cases e with
    | label name => exact ih
    | inst i =>
      rw [insts, List.forall₂_cons_left_iff]
      constructor
      · intro h
        obtain ⟨j, js, rfl, hi, hrest⟩ := resolveFrom_inst h
        exact ⟨j, js, hi, ih.mp hrest, rfl⟩
      · rintro ⟨j, js, hi, hrest, rfl⟩
        simp [resolveFrom, hi, ih.mpr hrest, bind, Except.bind, pure, Except.pure]

private theorem resolved_append {before after : Code} {is : List Instruction}
    (h : List.Forall₂ (fun i j => i.resolve labels = .ok j) (insts (before ++ after)) is) :
    ∃ is₁ is₂, is = is₁ ++ is₂ ∧ is₁.length = (insts before).length ∧
      Instruction.sizeAll is₁ = extent before ∧
      List.Forall₂ (fun i j => i.resolve labels = .ok j) after.insts is₂ := by
  rw [insts_append] at h
  have hbefore := (List.forall₂_take_append _ _ _ h.flip).flip
  have hafter := (List.forall₂_drop_append _ _ _ h.flip).flip
  have hres : resolveFrom labels 0 before = .ok (is.take (insts before).length) :=
    resolveFrom_eq_ok_iff.mpr hbefore
  exact ⟨_, _, (List.take_append_drop _ is).symm, hbefore.length_eq.symm,
    sizeAll_of_resolveFrom hres, hafter⟩

theorem assemble_eq_ok_iff {code : Code} {b : Binary} :
    code.assemble = .ok b ↔ code.labelNames.Nodup ∧ b.labels = ⟨labelTable 0 code⟩ ∧
      ∃ is, List.Forall₂ (fun i j => i.resolve b.labels = .ok j) code.insts is ∧
        b.bytes = Instruction.encodeAll is := by
  constructor
  · intro h
    unfold assemble at h
    split at h
    · next binary hlocated =>
      cases h
      unfold assembleLocated at hlocated
      split at hlocated
      · cases hlocated
      · next labels hlayout =>
        obtain ⟨hnd, rfl⟩ := layout_eq_ok_iff.mp hlayout
        split at hlocated
        · cases hlocated
        · next is hres =>
          cases hlocated
          exact ⟨hnd, rfl, is, resolveFrom_eq_ok_iff.mp hres, rfl⟩
    · cases h
  · rintro ⟨hnd, hlabels, is, his, hbytes⟩
    have hres : code.resolveFrom b.labels 0 = .ok is := resolveFrom_eq_ok_iff.mpr his
    rw [assemble, assembleLocated, layout_eq code hnd, ← hlabels]
    simp only [hres, ← hbytes]

/-- Well-formed code is assembled exactly if its labels differ from each other and it defines
those that it names. -/
theorem exists_assemble_iff {code : Code} (hwf : ∀ i, .inst i ∈ code → i.wellFormed) :
    (∃ b, code.assemble = .ok b) ↔
      code.labelNames.Nodup ∧ ∀ name, code.Names name → name ∈ code.labelNames := by
  constructor
  · rintro ⟨b, hb⟩
    obtain ⟨hnd, hlabels, is, his, _⟩ := assemble_eq_ok_iff.mp hb
    refine ⟨hnd, ?_⟩
    rintro name ⟨i, hi, hname⟩
    obtain ⟨j, hj⟩ : ∃ j, i.resolve b.labels = .ok j := by
      obtain ⟨before, after, rfl⟩ := List.append_of_mem hi
      obtain ⟨_, _, _, _, _, hafter⟩ := resolved_append his
      cases hafter with
      | cons hj _ => exact ⟨_, hj⟩
    rw [hlabels] at hj
    obtain ⟨offset, hoffset⟩ := (Inst.exists_resolve_iff (hwf i hi)).mp ⟨j, hj⟩ name hname
    exact mem_labelNames.mpr ⟨offset, (get_labelTable hnd).mp hoffset⟩
  · rintro ⟨hnd, hnames⟩
    have hres : code.Resolvable ⟨labelTable 0 code⟩ := by
      intro i hi
      apply (Inst.exists_resolve_iff (hwf i hi)).mpr
      intro name hname
      obtain ⟨offset, hdef⟩ := mem_labelNames.mp (hnames name ⟨i, hi, hname⟩)
      exact ⟨offset, (get_labelTable hnd).mpr hdef⟩
    obtain ⟨is, his⟩ := resolveFrom_ok code 0 hres
    exact ⟨⟨Instruction.encodeAll is, ⟨labelTable 0 code⟩⟩,
      assemble_eq_ok_iff.mpr ⟨hnd, rfl, is, resolveFrom_eq_ok_iff.mp his, rfl⟩⟩

/-- The program is what the code says. Its bytes list the instructions of the code in order, each
behind the bytes of those before it. Its table has the labels in order, each with the bytes before
it, which is where the next instruction stands, or the end of the program. -/
structure Represents (code : Code) (b : Binary) (l : List (Nat × Instruction)) : Prop where
  decoded : Instruction.decodeAll b.bytes = .ok l
  length : l.length = code.insts.length
  inst : ∀ before i after, code = before ++ .inst i :: after →
    ∃ j, l[(insts before).length]? = some (extent before, j) ∧ i.Denotes code j
  names : b.labels.entries.map Prod.fst = code.labelNames
  label : ∀ before name after, code = before ++ .label name :: after →
    b.labels.entries[(labelNames before).length]? = some (name, extent before)
  next : ∀ before name after, code = before ++ .label name :: after →
    (l[(insts before).length]?).elim b.bytes.size Prod.fst = extent before

theorem represents_of_assemble {code : Code} {b : Binary} (hsize : code.extent < 2 ^ 63)
    (hb : code.assemble = .ok b) : ∃ l, code.Represents b l := by
  obtain ⟨hnd, hlabels, is, his, hbytes⟩ := assemble_eq_ok_iff.mp hb
  have hsplit : ∀ {before after : Code}, code = before ++ after →
      ∃ is₁ is₂, is = is₁ ++ is₂ ∧ is₁.length = (insts before).length ∧
        Instruction.sizeAll is₁ = extent before ∧
        List.Forall₂ (fun i j => i.resolve b.labels = .ok j) after.insts is₂ := by
    intro before after hcode
    rw [hcode] at his
    exact resolved_append his
  -- Behind the first part of a listing stands what the second part starts with.
  have hentry : ∀ is₁ is₂ : List Instruction,
      (Instruction.listing 0 (is₁ ++ is₂))[is₁.length]? =
        is₂.head?.map fun j => (Instruction.sizeAll is₁, j) := by
    intro is₁ is₂
    cases is₂ <;> simp [Instruction.getElem?_listing]
  refine ⟨Instruction.listing 0 is, ?_⟩
  constructor
  · rw [hbytes]
    exact Instruction.decodeAll_encodeAll is
  · rw [← List.length_map (f := Prod.snd), Instruction.map_snd_listing, his.length_eq]
  · intro before i after hcode
    obtain ⟨is₁, is₂, rfl, hlen, hext, hafter⟩ := hsplit hcode
    cases hafter with
    | @cons _ j _ js hj _ =>
      refine ⟨j, ?_, ?_⟩
      · rw [← hlen, hentry, ← hext]
        rfl
      · rw [hlabels] at hj
        exact Inst.denotes_of_resolve hnd hsize hj
  · rw [hlabels]
    exact labelTable_map_fst 0 code
  · intro before name after hcode
    rw [hlabels, hcode, labelTable_append, ← length_labelTable 0 before]
    simp [labelTable]
  · intro before name after hcode
    obtain ⟨is₁, is₂, rfl, hlen, hext, _⟩ := hsplit hcode
    rw [← hlen, hentry, hbytes, Instruction.encodeAll_size, ← hext]
    cases is₂ <;> simp

/-- If code ends with an instruction, each of its labels stands in front of one. -/
theorem labels_listed {code body : Code} {last : Inst} {b : Binary}
    (hcode : code = body ++ [.inst last]) (hb : code.assemble = .ok b) :
    ∃ l, Instruction.decodeAll b.bytes = .ok l ∧
      ∀ p ∈ b.labels.entries, p.2 < b.bytes.size ∧ ∃ i, (p.2, i) ∈ l := by
  obtain ⟨_, hlabels, is, his, hbytes⟩ := assemble_eq_ok_iff.mp hb
  refine ⟨Instruction.listing 0 is, by rw [hbytes, Instruction.decodeAll_encodeAll], ?_⟩
  rintro ⟨name, offset⟩ hp
  rw [hlabels] at hp
  obtain ⟨_, ⟨before, after, hsplit, rfl⟩, rfl⟩ := mem_labelTable.mp hp
  have hlast : Element.inst last ∈ after := by
    have htail := congrArg List.getLast? (hcode.symm.trans hsplit)
    cases hafter : after.getLast? with
    | none => simp [List.getLast?_eq_none_iff.mp hafter] at htail
    | some e =>
      obtain rfl : Element.inst last = e := by
        simpa [List.getLast?_append, List.getLast?_cons, hafter] using htail
      exact List.mem_of_getLast? hafter
  rw [hsplit] at his
  obtain ⟨is₁, is₂, rfl, _, hext, hafter⟩ := resolved_append his
  cases is₂ with
  | nil =>
    obtain ⟨first, rest, rfl⟩ := List.append_of_mem hlast
    have hlength := hafter.length_eq
    simp [insts, insts_append] at hlength
  | cons j js =>
    have hmem : (extent before, j) ∈ Instruction.listing 0 (is₁ ++ j :: js) := by
      rw [Instruction.listing_append, ← hext]
      simp [Instruction.listing]
    have hend := Instruction.mem_listing_lt hmem
    have hpos := j.size_pos
    rw [Nat.zero_add, hbytes, Instruction.encodeAll_size]
    refine ⟨?_, j, hmem⟩
    show extent before < _
    omega

/-- Assembly of code whose instructions pass the signature check. It succeeds exactly if no label
is defined twice and every label operand names a label of the code, and then gives the program
that the code represents. -/
theorem assemble_represents (code : Code)
    (hsig : ∀ i, .inst i ∈ code → Inst.make i.op i.args = .ok i) (hsize : code.extent < 2 ^ 63) :
    ((∃ b, code.assemble = .ok b) ↔
      code.labelNames.Nodup ∧ ∀ name, code.Names name → name ∈ code.labelNames) ∧
    ∀ b, code.assemble = .ok b → ∃ l, code.Represents b l := by
  constructor
  · apply exists_assemble_iff
    intro i hi
    exact Inst.make_eq_ok_iff.mp (hsig i hi)
  · intro b hb
    exact represents_of_assemble hsize hb

/-- Two labels at one place, a jump to the end of the code, an integer in the place of a double,
and two references back. -/
def hopCode : Code :=
  [.label "a", .label "b", .inst (.jumpl "end"), .inst ⟨.pushd, [.int 3]⟩, .label "c",
    .inst (.calll "a" 2), .inst ⟨.jumpnzl, [.label "c"]⟩, .label "end"]

theorem assemble_represents_hopCode :
    (∀ i, .inst i ∈ hopCode → Inst.make i.op i.args = .ok i) ∧ hopCode.extent < 2 ^ 63 ∧
      ∃ b l, hopCode.assemble = .ok b ∧ hopCode.Represents b l ∧
        l[1]? = some (9, .push (.ofNat 0x4008000000000000)) := by
  have hsig : ∀ i, .inst i ∈ hopCode → Inst.make i.op i.args = .ok i := by
    intro i hi
    simp only [hopCode, List.mem_cons, Element.inst.injEq, reduceCtorEq, List.not_mem_nil,
      or_false, false_or] at hi
    rcases hi with rfl | rfl | rfl | rfl <;> rfl
  have hsize : hopCode.extent < 2 ^ 63 := by decide
  have hnames : ∀ name, hopCode.Names name → name ∈ hopCode.labelNames := by
    rintro name ⟨i, hi, hname⟩
    simp only [hopCode, List.mem_cons, Element.inst.injEq, reduceCtorEq, List.not_mem_nil,
      or_false, false_or] at hi
    rcases hi with rfl | rfl | rfl | rfl <;>
      simp_all [Inst.jumpl, Inst.calll, hopCode, labelNames]
  have hthree : (hopCode.assemble.toOption.bind fun b =>
      (Instruction.decodeAll b.bytes).toOption.bind fun l => l[1]?) =
      some (9, .push (.ofNat 0x4008000000000000)) := by
    decide +kernel
  obtain ⟨b, hb⟩ := (assemble_represents hopCode hsig hsize).1.mpr ⟨by decide, hnames⟩
  obtain ⟨l, hl⟩ := (assemble_represents hopCode hsig hsize).2 b hb
  rw [hb, Except.toOption, Option.bind_some, hl.decoded] at hthree
  exact ⟨hsig, hsize, b, l, hb, hl, hthree⟩

end Code

end EdeLang
