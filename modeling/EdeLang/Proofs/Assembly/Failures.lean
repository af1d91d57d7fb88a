import EdeLang.Proofs.Assembly.Resolution

/-!
# Code that cannot be assembled

The layout fails at the first label that repeats an earlier one, before any operand is looked at.
If all labels differ, assembly fails at the first instruction with a label that is not defined. The
operands of an instruction that passed the signature check have an executable form apart from that,
so there is no other failure.
-/

namespace EdeLang

namespace Operand

variable (labels : Labels)

theorem field?_cases {a : Operand} {kind : Arg} (hfits : a.fits kind) :
    (∃ field, a.field? labels kind = .ok (some field)) ∨
      ∃ name e, a = .label name ∧ labels.get name = .error e ∧ a.field? labels kind = .error e := by
  by_cases hfound : ∀ name, a = .label name → ∃ offset, labels.get name = .ok offset
  · obtain ⟨field, hfield, -⟩ := field?_of_fits hfits hfound
    exact .inl ⟨field, hfield⟩
  · simp only [not_forall] at hfound
    obtain ⟨name, rfl, hmissing⟩ := hfound
    cases hget : labels.get name with
    | ok offset => exact absurd ⟨offset, hget⟩ hmissing
    | error e =>
      refine .inr ⟨name, e, rfl, hget, ?_⟩
      cases kind <;> simp_all [fits, field?]

theorem fields?_cases {as : List Operand} {kinds : List Arg} (hfits : fitAll as kinds) :
    (∃ fields, fields? labels as kinds = .ok (some fields)) ∨
      ∃ name e, label name ∈ as ∧ labels.get name = .error e ∧
        fields? labels as kinds = .error e := by
  induction as generalizing kinds with
  | nil =>
    cases kinds with
    | nil => exact .inl ⟨[], rfl⟩
    | cons kind kinds => simp [fitAll] at hfits
  | cons a as ih =>
    cases kinds with
    | nil => simp [fitAll] at hfits
    | cons kind kinds =>
      rw [fitAll, Bool.and_eq_true] at hfits
      rcases field?_cases labels hfits.1 with
        ⟨field, hfield⟩ | ⟨name, e, rfl, hget, hfield⟩
      · rcases ih hfits.2 with ⟨rest, hrest⟩ | ⟨name, e, hname, hget, hrest⟩
        · exact .inl ⟨field :: rest, fields?_cons.mpr ⟨field, rest, rfl, hfield, hrest⟩⟩
        · refine .inr ⟨name, e, List.mem_cons_of_mem _ hname, hget, ?_⟩
          simp [fields?, hfield, hrest, bind, Except.bind]
      · refine .inr ⟨name, e, List.mem_cons_self, hget, ?_⟩
        simp [fields?, hfield, bind, Except.bind]

end Operand

theorem Labels.get_eq_error {labels : Labels} {name : String} {e : AssemblyError}
    (h : labels.get name = .error e) :
    e = .undefinedLabel name ∧ ∀ offset, labels.get name ≠ .ok offset := by
  constructor
  · unfold Labels.get at h
    split at h <;> cases h
    rfl
  · intro offset hok
    rw [h] at hok
    cases hok

/-- A well-formed instruction has an executable form, or has a label that is not found, which is
then the error. -/
theorem Inst.resolve_cases (labels : Labels) {i : Inst} (hi : i.wellFormed) :
    (∃ j, i.resolve labels = .ok j) ∨
      ∃ name, .label name ∈ i.args ∧ (∀ offset, labels.get name ≠ .ok offset) ∧
        i.resolve labels = .error (.undefinedLabel name) := by
  rcases Operand.fields?_cases labels hi with
    ⟨fields, hfields⟩ | ⟨name, e, hname, hget, herror⟩
  · exact .inl ((exists_resolve_iff hi).mpr fun name hname => Operand.get_of_fields? hfields hname)
  · obtain ⟨rfl, hnone⟩ := Labels.get_eq_error hget
    refine .inr ⟨name, hname, hnone, ?_⟩
    simp [resolve, herror, bind, Except.bind]

theorem Inst.resolve_ne_mismatch {labels : Labels} {i : Inst} (hi : i.wellFormed) (op : Opcode) :
    i.resolve labels ≠ .error (.signatureMismatch op) := by
  intro h
  rcases resolve_cases labels hi with ⟨j, hj⟩ | ⟨name, -, -, herror⟩
  · rw [hj] at h
    cases h
  · rw [herror] at h
    cases h

namespace Code

/-- The layout stops at a label that was defined before. -/
theorem layoutFrom_of_repeated (before after : Code) {labels : Labels} {offset : Nat}
    {name : String} (hnd : (labels.entries.map Prod.fst ++ before.labelNames).Nodup)
    (hname : name ∈ labels.entries.map Prod.fst ++ before.labelNames) :
    layoutFrom labels offset (before ++ .label name :: after) = .error (.redefinedLabel name) := by
  induction before generalizing labels offset with
  | nil =>
    have hused : name ∈ labels.entries.map Prod.fst := by simpa [labelNames] using hname
    have hinsert := insert_used offset hused
    rw [List.nil_append, layoutFrom]
    split <;> simp_all
  | cons e before ih =>
    cases e with
    | inst i => exact ih hnd hname
    | label other =>
      have hfresh : other ∉ labels.entries.map Prod.fst := by
        intro hmem
        exact (List.nodup_append.mp hnd).2.2 other hmem other (by simp [labelNames]) rfl
      rw [List.cons_append, layoutFrom, insert_fresh labels other offset hfresh]
      apply ih
      · simpa [labelNames] using hnd
      · simpa [labelNames] using hname

theorem exists_repeated {code : Code} (h : ¬ code.labelNames.Nodup) :
    ∃ (before : Code) (name : String) (after : Code), code = before ++ .label name :: after ∧
      before.labelNames.Nodup ∧ name ∈ before.labelNames := by
  induction code using List.reverseRecOn with
  | nil => simp [labelNames] at h
  | append_singleton before e ih =>
    by_cases hnd : (labelNames before).Nodup
    · cases e with
      | inst i =>
        rw [labelNames_append] at h
        simp [labelNames, hnd] at h
      | label name =>
        refine ⟨before, name, [], rfl, hnd, ?_⟩
        by_contra hfresh
        apply h
        rw [labelNames_append]
        exact List.nodup_append.mpr ⟨hnd, by simp [labelNames], fun a ha b hb hab => by
          simp only [labelNames, List.mem_singleton] at hb
          exact hfresh (hb ▸ hab ▸ ha)⟩
    · obtain ⟨first, name, after, rfl, hfirst, hname⟩ := ih hnd
      exact ⟨first, name, after ++ [e], by simp, hfirst, hname⟩

theorem assembleLocated_of_repeated (before after : Code) {name : String}
    (hnd : before.labelNames.Nodup) (hname : name ∈ before.labelNames) :
    assembleLocated (before ++ .label name :: after) = .error (none, .redefinedLabel name) := by
  have hlayout : layout (before ++ .label name :: after) = .error (.redefinedLabel name) :=
    layoutFrom_of_repeated before after (by simpa [Labels.empty] using hnd)
      (by simpa [Labels.empty] using hname)
  rw [assembleLocated, hlayout]

/-- Resolution succeeds, or stops at the first instruction with a label that is not found. -/
theorem resolveFrom_cases (labels : Labels) {code : Code}
    (hwf : ∀ i, .inst i ∈ code → i.wellFormed) (index : Nat) :
    (∃ is, code.resolveFrom labels index = .ok is) ∨
      ∃ (before : Code) (i : Inst) (after : Code) (name : String),
        code = before ++ .inst i :: after ∧ .label name ∈ i.args ∧
        (∀ offset, labels.get name ≠ .ok offset) ∧
        (∀ earlier, before.Names earlier → ∃ offset, labels.get earlier = .ok offset) ∧
        code.resolveFrom labels index = .error (index + before.length, .undefinedLabel name) := by
  induction code generalizing index with
  | nil => exact .inl ⟨[], rfl⟩
  | cons e code ih =>
    have hrest := ih (fun i hi => hwf i (List.mem_cons_of_mem e hi)) (index + 1)
    cases e with
    | label other =>
      rcases hrest with hok | ⟨before, i, after, name, rfl, hname, hnone, hearlier, herror⟩
      · exact .inl hok
      · refine .inr ⟨.label other :: before, i, after, name, rfl, hname, hnone, ?_, ?_⟩
        · rintro earlier ⟨j, hj, hlabel⟩
          exact hearlier earlier ⟨j, by simpa using hj, hlabel⟩
        · rw [resolveFrom, herror, List.length_cons]
          congr 2
          omega
    | inst j =>
      have hj := hwf j List.mem_cons_self
      rcases Inst.resolve_cases labels hj with ⟨k, hk⟩ | ⟨name, hname, hnone, herror⟩
      · rcases hrest with ⟨is, his⟩ | ⟨before, i, after, name, rfl, hname, hnone, hearlier, herror⟩
        · exact .inl ⟨k :: is, by simp [resolveFrom, hk, his, bind, Except.bind, pure, Except.pure]⟩
        · refine .inr ⟨.inst j :: before, i, after, name, rfl, hname, hnone, ?_, ?_⟩
          · rintro earlier ⟨l, hl, hlabel⟩
            rcases List.mem_cons.mp hl with heq | hl
            · cases heq
              exact (Inst.exists_resolve_iff hj).mp ⟨k, hk⟩ earlier hlabel
            · exact hearlier earlier ⟨l, hl, hlabel⟩
          · simp only [resolveFrom, hk, herror, bind, Except.bind, List.length_cons]
            congr 2
            omega
      · refine .inr ⟨[], j, code, name, rfl, hname, hnone, ?_, ?_⟩
        · rintro earlier ⟨l, hl, -⟩
          cases hl
        · simp [resolveFrom, herror]

theorem exists_get_iff {code : Code} (hnd : code.labelNames.Nodup) {name : String} :
    (∃ offset, Labels.get ⟨labelTable 0 code⟩ name = .ok offset) ↔ name ∈ code.labelNames := by
  rw [mem_labelNames]
  exact exists_congr fun offset => get_labelTable hnd

/-- If all labels differ, assembly succeeds or stops at the first instruction with a label that is
not defined. -/
theorem assembleLocated_cases {code : Code} (hwf : ∀ i, .inst i ∈ code → i.wellFormed)
    (hnd : code.labelNames.Nodup) :
    (∃ b, code.assembleLocated = .ok b) ∨
      ∃ (before : Code) (i : Inst) (after : Code) (name : String),
        code = before ++ .inst i :: after ∧ .label name ∈ i.args ∧
        name ∉ code.labelNames ∧ (∀ earlier, before.Names earlier → earlier ∈ code.labelNames) ∧
        code.assembleLocated = .error (some before.length, .undefinedLabel name) := by
  have hlayout := layout_eq code hnd
  rcases resolveFrom_cases ⟨labelTable 0 code⟩ hwf 0 with
    ⟨is, his⟩ | ⟨before, i, after, name, hcode, hname, hnone, hearlier, herror⟩
  · exact .inl ⟨⟨Instruction.encodeAll is, ⟨labelTable 0 code⟩⟩, by
      simp only [assembleLocated, hlayout, his]⟩
  · refine .inr ⟨before, i, after, name, hcode, hname, ?_, ?_, ?_⟩
    · intro hmem
      obtain ⟨offset, hget⟩ := (exists_get_iff hnd).mpr hmem
      exact hnone offset hget
    · intro earlier hnamed
      exact (exists_get_iff hnd).mp (hearlier earlier hnamed)
    · simp only [assembleLocated, hlayout, herror, Nat.zero_add]

theorem assemble_eq_mapError (code : Code) :
    code.assemble = code.assembleLocated.mapError Prod.snd := by
  unfold assemble
  cases code.assembleLocated with
  | ok b => rfl
  | error e => rfl

/-- Code whose instructions pass the signature check fails for a label only. If a label is defined
twice, the first that repeats an earlier one is reported, without a place and whatever operands the
code has. Otherwise, if a label operand is not defined, the first instruction with such an operand
is reported, with its place. The plain assembler reports the same without the place. -/
theorem assemble_failure (code : Code)
    (hsig : ∀ i, .inst i ∈ code → Inst.make i.op i.args = .ok i) :
    (¬ code.labelNames.Nodup → ∃ (before : Code) (name : String) (after : Code),
      code = before ++ .label name :: after ∧ before.labelNames.Nodup ∧ name ∈ before.labelNames ∧
      code.assembleLocated = .error (none, .redefinedLabel name)) ∧
    (code.labelNames.Nodup → (∃ name, code.Names name ∧ name ∉ code.labelNames) →
      ∃ (before : Code) (i : Inst) (after : Code) (name : String),
        code = before ++ .inst i :: after ∧
        (∀ earlier, before.Names earlier → earlier ∈ code.labelNames) ∧
        .label name ∈ i.args ∧ name ∉ code.labelNames ∧
        code.assembleLocated = .error (some before.length, .undefinedLabel name)) ∧
    (∀ i labels op, .inst i ∈ code → i.resolve labels ≠ .error (.signatureMismatch op)) ∧
    (∀ op, code.assemble ≠ .error (.signatureMismatch op)) ∧
    code.assemble = code.assembleLocated.mapError Prod.snd := by
  have hwf : ∀ i, .inst i ∈ code → i.wellFormed := fun i hi => Inst.make_eq_ok_iff.mp (hsig i hi)
  refine ⟨?_, ?_, ?_, ?_, assemble_eq_mapError code⟩
  · intro htwice
    obtain ⟨before, name, after, rfl, hnd, hname⟩ := exists_repeated htwice
    exact ⟨before, name, after, rfl, hnd, hname, assembleLocated_of_repeated before after hnd hname⟩
  · rintro hnd ⟨name, hnamed, hundefined⟩
    rcases assembleLocated_cases hwf hnd with ⟨b, hb⟩ | ⟨before, i, after, found, hcode, hlabel,
      hmissing, hearlier, herror⟩
    · have hassemble : code.assemble = .ok b := by
        rw [assemble_eq_mapError, hb]
        rfl
      exact absurd (((exists_assemble_iff hwf).mp ⟨b, hassemble⟩).2 name hnamed) hundefined
    · exact ⟨before, i, after, found, hcode, hearlier, hlabel, hmissing, herror⟩
  · exact fun i labels op hi => Inst.resolve_ne_mismatch (hwf i hi) op
  · intro op hmismatch
    rw [assemble_eq_mapError] at hmismatch
    by_cases hnd : code.labelNames.Nodup
    · rcases assembleLocated_cases hwf hnd with ⟨b, hb⟩ | ⟨_, _, _, _, _, _, _, _, herror⟩
      · rw [hb] at hmismatch
        cases hmismatch
      · rw [herror] at hmismatch
        cases hmismatch
    · obtain ⟨before, name, after, rfl, hfirst, hname⟩ := exists_repeated hnd
      rw [assembleLocated_of_repeated before after hfirst hname] at hmismatch
      cases hmismatch

/-- Two labels are repeated, and a jump in front of them leads nowhere. -/
def twiceCode : Code :=
  [.label "a", .inst (.jumpl "nowhere"), .label "b", .label "b", .label "a"]

def strayCode : Code :=
  [.label "a", .inst (.jumpl "a"), .inst (.calll "nowhere" 0), .inst (.jumpl "elsewhere")]

theorem assemble_failure_codes :
    (∃ (before : Code) (name : String) (after : Code), twiceCode = before ++ .label name :: after ∧
      before.labelNames.Nodup ∧ name ∈ before.labelNames ∧
      twiceCode.assembleLocated = .error (none, .redefinedLabel name)) ∧
    twiceCode.assembleLocated = .error (none, .redefinedLabel "b") ∧
    (∃ (before : Code) (i : Inst) (after : Code) (name : String),
      strayCode = before ++ .inst i :: after ∧
      (∀ earlier, before.Names earlier → earlier ∈ strayCode.labelNames) ∧
      .label name ∈ i.args ∧ name ∉ strayCode.labelNames ∧
      strayCode.assembleLocated = .error (some before.length, .undefinedLabel name)) ∧
    strayCode.assembleLocated = .error (some 2, .undefinedLabel "nowhere") := by
  have htwice : ∀ i, .inst i ∈ twiceCode → Inst.make i.op i.args = .ok i := by
    simp only [twiceCode, List.mem_cons, List.not_mem_nil]
    rintro i (h | h | h | h | h | h) <;> cases h
    rfl
  have hstray : ∀ i, .inst i ∈ strayCode → Inst.make i.op i.args = .ok i := by
    simp only [strayCode, List.mem_cons, List.not_mem_nil]
    rintro i (h | h | h | h | h) <;> cases h <;> rfl
  refine ⟨(assemble_failure twiceCode htwice).1 (by decide), rfl,
    (assemble_failure strayCode hstray).2.1 (by decide) ⟨"nowhere", ?_, by decide⟩, rfl⟩
  exact ⟨.calll "nowhere" 0, by simp [strayCode], by decide⟩

end Code

end EdeLang
