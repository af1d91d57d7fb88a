import EdeLang.Proofs.Lowering.Balance

/-!
# The stack discipline of lowered code

Every instruction of the code of a checked module has a height of the stack above the base of its
frame, also where control never comes. The heights agree along all ways that control may take, no
instruction reaches below the base, and each slot that is used lies below the height.
-/

namespace EdeLang
namespace Lowering

variable {m : Module}

section Programs

def Stops (c : Code) : Prop := ∃ front i, c = front ++ [.inst i] ∧ i.continues = false

/-- Control does not come to a label that is entered from elsewhere by going on. -/
def Separated (m : Module) (c : Code) : Prop :=
  ∀ front name back, c = front ++ .label name :: back → m.entryHeight name ≠ none → Stops front

theorem Stops.append {c : Code} (hc : Stops c) (front : Code) : Stops (front ++ c) := by
  obtain ⟨mid, i, rfl, hi⟩ := hc
  exact ⟨front ++ mid, i, by rw [List.append_assoc], hi⟩

theorem separated_of_entryless {c : Code} (hc : ∀ name ∈ c.labelNames, m.entryHeight name = none) :
    Separated m c := by
  rintro front name back rfl hentry
  exact absurd (hc name (by simp [Code.labelNames])) hentry

theorem Level.entryless {h h' : Nat} {c : Code} (hc : Level m h c h') :
    ∀ name ∈ c.labelNames, m.entryHeight name = none := by
  obtain ⟨marks, jumps, hc, _, hentry⟩ := hc
  rw [← hc.names]
  intro name hname
  obtain ⟨p, hp, rfl⟩ := List.mem_map.mp hname
  exact hentry p hp

theorem Separated.entry {c body : Code} (hc : Separated m c) (hstops : Stops c)
    (hbody : ∀ name ∈ body.labelNames, m.entryHeight name = none) (name : String) :
    Separated m (c ++ .label name :: body) := by
  intro front name' back heq hentry
  rcases List.append_eq_append_iff.mp heq with ⟨mid, rfl, hmid⟩ | ⟨mid, rfl, hmid⟩
  · cases mid with
    | nil => simpa using hstops
    | cons e mid =>
      obtain ⟨_, rfl⟩ := List.cons.inj hmid
      exact absurd (hbody name' (by simp [Code.labelNames])) hentry
  · cases mid with
    | nil => simpa using hstops
    | cons e mid =>
      obtain ⟨rfl, _⟩ := List.cons.inj hmid
      exact hc front name' mid rfl hentry

theorem funcs_cons {f : Func} {fs : List Func} {seen : List String} {lastId hi : Nat} {code : Code}
    (h : funcs seen lastId (f :: fs) = .ok (code, hi)) : ∃ body rest,
      stmt (f.params.map Item.name).reverse lastId f.body = .ok body ∧
        funcs (f.name :: seen) body.lastId fs = .ok (rest, hi) ∧
        code = funcCode f.name body ++ rest := by
  rw [funcs] at h
  split at h
  · cases h
  · obtain ⟨⟨first, mid⟩, hfirst, h⟩ := bind_eq_ok.mp h
    obtain ⟨⟨rest, last⟩, hrest, h⟩ := bind_eq_ok.mp h
    cases h
    obtain ⟨body, hbody, hcode⟩ := bind_eq_ok.mp hfirst
    cases hcode
    exact ⟨body, rest, hbody, hrest, rfl⟩

/-- The code of a function climbs from its parameters, whatever stands in front of it. -/
theorem climbs_func (hdistinct : (m.funcs.map Func.name).Nodup) {f : Func} (hf : f ∈ m.funcs)
    (hbinds : Binds m f.body) {lastId : Nat} {body : Lowered}
    (hbody : stmt (f.params.map Item.name).reverse lastId f.body = .ok body) (h : Nat) :
    ∃ h' marks jumps, Climbs m h (funcCode f.name body) h' marks jumps ∧ jumps ⊆ marks := by
  obtain ⟨_, marks, jumps, hcode, hjumps, _⟩ := hbinds _ lastId body hbody
  rw [List.length_reverse, List.length_map] at hcode
  have hend : Climbs m body.slots.length [push 0, op .ret] body.slots.length [] [] :=
    (climbs_push 0).append climbs_ret
  refine ⟨_, _, _, ((climbs_entry (entryHeight_funcLabel hdistinct hf)).append hcode).append hend,
    ?_⟩
  simpa using List.subset_cons_of_subset _ hjumps

theorem climbs_funcs (hdistinct : (m.funcs.map Func.name).Nodup) {fs : List Func}
    (hfs : ∀ f ∈ fs, f ∈ m.funcs ∧ Binds m f.body) {seen : List String} {lastId hi : Nat}
    {code : Code} (hcode : funcs seen lastId fs = .ok (code, hi)) (h : Nat) :
    ∃ h' marks jumps, Climbs m h code h' marks jumps ∧ jumps ⊆ marks := by
  induction fs generalizing seen lastId code h with
  | nil =>
    cases hcode
    exact ⟨h, [], [], .nil h, by simp⟩
  | cons f fs ih =>
    rw [List.forall_mem_cons] at hfs
    obtain ⟨body, rest, hbody, hrest, rfl⟩ := funcs_cons hcode
    obtain ⟨mid, marks, jumps, hfirst, hjumps⟩ := climbs_func hdistinct hfs.1.1 hfs.1.2 hbody h
    obtain ⟨h', marks', jumps', hothers, hjumps'⟩ := ih hfs.2 hrest mid
    exact ⟨h', _, _, hfirst.append hothers, List.append_subset.mpr
      ⟨List.subset_append_of_subset_left _ hjumps, List.subset_append_of_subset_right _ hjumps'⟩⟩

theorem separated_funcs {fs : List Func} (hfs : ∀ f ∈ fs, Binds m f.body) {seen : List String}
    {lastId hi : Nat} {code front : Code} (hcode : funcs seen lastId fs = .ok (code, hi))
    (hfront : Separated m front) (hstops : Stops front) :
    Separated m (front ++ code) ∧ Stops (front ++ code) := by
  induction fs generalizing seen lastId code front with
  | nil =>
    cases hcode
    rw [List.append_nil]
    exact ⟨hfront, hstops⟩
  | cons f fs ih =>
    rw [List.forall_mem_cons] at hfs
    obtain ⟨body, rest, hbody, hrest, rfl⟩ := funcs_cons hcode
    have hlabels : ∀ name ∈ (body.code ++ [push 0, op .ret]).labelNames,
        m.entryHeight name = none := by
      simpa [Code.labelNames, push, op] using (hfs.1 _ lastId body hbody).2.entryless
    have hret : Stops (funcCode f.name body) :=
      ⟨.label (funcLabel f.name) :: body.code ++ [push 0], .plain .ret, by simp [funcCode, op], rfl⟩
    have hfirst : Separated m (front ++ funcCode f.name body) :=
      hfront.entry hstops hlabels (funcLabel f.name)
    rw [← List.append_assoc]
    exact ih hfs.2 hrest hfirst (hret.append front)

theorem level_status {s : Stmt} (hs : ∀ node ∈ s.nodes, Balanced m node) {slots : Slots}
    {lastId : Nat} {c : Code} (hc : status slots lastId s = .ok c) :
    ∃ k, Level m slots.length c (k + 1) := by
  have hzero : ∀ l, stmt slots lastId s = .ok l →
      ∃ k, Level m slots.length (l.code ++ [push 0]) (k + 1) := by
    intro l hl
    exact ⟨_, (hs _ s.self_mem_nodes slots lastId l hl).2.append (climbs_push 0).level⟩
  cases s with
  | expr info e =>
    rw [status, bind_eq_ok] at hc
    obtain ⟨type, _, hc⟩ := hc
    split at hc
    · have he : Pushes m e := hs _ (List.mem_cons_of_mem _ e.self_mem_nodes)
      exact ⟨_, (he slots c _ hc (Nat.le_refl _)).level⟩
    · obtain ⟨l, hl, hc⟩ := bind_eq_ok.mp hc
      cases hc
      exact hzero l hl
  | var | block | cond | loop | ret =>
    rw [status] at hc
    · obtain ⟨l, hl, hc⟩ := bind_eq_ok.mp hc
      cases hc
      exact hzero l hl
    · simp

theorem level_statements {ss : List Stmt} (hss : ∀ node ∈ Stmt.nodesAll ss, Balanced m node)
    {slots : Slots} {lastId : Nat} {c : Code} (hc : statements slots lastId ss = .ok c) :
    ∃ k, Level m slots.length c (k + 1) := by
  induction ss generalizing slots lastId c with
  | nil =>
    cases hc
    exact ⟨_, (climbs_push 0).level⟩
  | cons s ss ih =>
    obtain ⟨hs, hss⟩ := List.forall_mem_append.mp hss
    cases ss with
    | nil => exact level_status hs hc
    | cons s' ss =>
      rw [statements, bind_eq_ok] at hc
      · obtain ⟨first, hfirst, hc⟩ := hc
        obtain ⟨rest, hrest, hc⟩ := bind_eq_ok.mp hc
        cases hc
        obtain ⟨k, hmore⟩ := ih hss hrest
        exact ⟨k, (hs _ s.self_mem_nodes slots lastId first hfirst).2.append hmore⟩
      · simp

/-- The height climbs through the whole code of a module, whose jumps stay within it. -/
theorem climbs_wholeCode (hm : m.Typed) (hnodes : ∀ node ∈ m.nodes, Balanced m node)
    {functions main : Code} {lastId : Nat}
    (hfuncs : funcs [] 0 m.funcs = .ok (functions, lastId))
    (hmain : statements [] lastId m.stmts = .ok main) :
    ∃ top marks jumps, Climbs m 0 (Module.wholeCode functions main) top marks jumps ∧
      jumps ⊆ marks := by
  have hstart : Climbs m 0 [.label startLabel, .inst (.jumpl mainLabel)] 0 [(startLabel, 0)]
      [(mainLabel, 0)] := (climbs_label entryHeight_startLabel).append climbs_jumpl
  obtain ⟨mid, marks, jumps, hfunctions, hjumps⟩ := climbs_funcs hm.distinct
    (fun f hf => ⟨hf, hnodes _ (Module.body_mem_nodes hf)⟩) hfuncs 0
  obtain ⟨k, marks', jumps', hstmts, hjumps', _⟩ := level_statements
    (fun node hnode => hnodes node (Module.mem_nodes_of_stmts hnode)) hmain
  have hexit : Climbs m (k + 1) [.inst (.syscall .exit)] k [] [] :=
    climbs_inst (.exit (Nat.le_add_left 1 k)) rfl rfl
  refine ⟨_, _, _, (((hstart.append hfunctions).append
    (climbs_entry entryHeight_mainLabel)).append hstmts).append hexit, ?_⟩
  grind

theorem separated_wholeCode (hnodes : ∀ node ∈ m.nodes, Balanced m node)
    {functions main : Code} {lastId : Nat}
    (hfuncs : funcs [] 0 m.funcs = .ok (functions, lastId))
    (hmain : statements [] lastId m.stmts = .ok main) :
    Separated m (Module.wholeCode functions main) := by
  have hstart : Separated m [.label startLabel, .inst (.jumpl mainLabel)] :=
    separated_of_entryless (by simp [Code.labelNames, entryHeight_startLabel])
  have hjump : Stops [.label startLabel, .inst (.jumpl mainLabel)] :=
    ⟨[.label startLabel], .jumpl mainLabel, rfl, rfl⟩
  obtain ⟨hfunctions, hstops⟩ := separated_funcs
    (fun f hf => hnodes _ (Module.body_mem_nodes hf)) hfuncs hstart hjump
  obtain ⟨k, hstmts⟩ := level_statements
    (fun node hnode => hnodes node (Module.mem_nodes_of_stmts hnode)) hmain
  have hlabels : ∀ name ∈ (main ++ [.inst (.syscall .exit)] : Code).labelNames,
      m.entryHeight name = none := by
    simpa [Code.labelNames] using hstmts.entryless
  have hwhole := hfunctions.entry hstops hlabels mainLabel
  simpa [Module.wholeCode, Module.bodyCode] using hwhole

end Programs

/-- The heights in front of the elements of the code keep the discipline of the stack: they agree
along all ways of control, and no instruction reaches below the base of its frame. -/
structure Disciplined (m : Module) (code : Code) (height : Nat → Nat) : Prop where
  start : height 0 = 0
  main : ∃ k : Nat, code[k]? = some (.label mainLabel) ∧ height (k + 1) = 0
  entry : ∀ f ∈ m.funcs, ∃ k : Nat, code[k]? = some (.label (funcLabel f.name)) ∧
    height (k + 1) = f.params.length
  enough : ∀ (k : Nat) (i : Inst), code[k]? = some (.inst i) → i.pops ≤ height k
  next : ∀ (k : Nat) (i : Inst), code[k]? = some (.inst i) → height (k + 1) = i.next (height k)
  /-- A label changes the height only where control does not go on to it. -/
  pass : ∀ (k : Nat) (name : String), code[k]? = some (.label name) → height (k + 1) = height k ∨
    ∃ (j : Nat) (i : Inst), k = j + 1 ∧ code[j]? = some (.inst i) ∧ i.continues = false
  jump : ∀ (k : Nat) (i : Inst) (name : String), code[k]? = some (.inst i) →
    i.target? = some name → (∃ j : Nat, code[j]? = some (.label name)) ∧
      ∀ j : Nat, code[j]? = some (.label name) → height (j + 1) = i.next (height k)
  call : ∀ (k : Nat) (i : Inst), code[k]? = some (.inst i) → i.op = .calll → ∃ f ∈ m.funcs,
    i = .calll (funcLabel f.name) f.params.length ∧ i.number = f.params.length
  load : ∀ (k : Nat) (i : Inst), code[k]? = some (.inst i) → i.op = .sload → i.number < height k
  store : ∀ (k : Nat) (i : Inst), code[k]? = some (.inst i) → i.op = .sstore →
    i.number + 1 < height k
  ret : ∀ (k : Nat) (i : Inst), code[k]? = some (.inst i) → i.op = .ret → 1 ≤ height k
  exit : ∃ k : Nat, k + 1 = code.length ∧ code[k]? = some (.inst (.syscall .exit)) ∧ 1 ≤ height k
  /-- Wherever the code of an expression stands, it adds one word. -/
  value : ∀ e, .expr e ∈ m.nodes → ∀ slots c front back, expr slots e = .ok c →
    code = front ++ c ++ back → height (front.length + c.length) = height front.length + 1
  /-- Wherever the code of a statement stands, it adds the words of the slots that it binds. -/
  bound : ∀ s, .stmt s ∈ m.nodes → ∀ slots id l front back, stmt slots id s = .ok l →
    code = front ++ l.code ++ back →
      height (front.length + l.code.length) = height front.length + s.binds

section Discipline

variable {code : Code} {top : Nat} {marks jumps : Marks}

/-- Where labels differ, a jump comes with the height behind its label. -/
theorem Climbs.at_jump (hcode : Climbs m 0 code top marks jumps) (hjumps : jumps ⊆ marks)
    (hnodup : code.labelNames.Nodup) {k j : Nat} {i : Inst} {name : String}
    (hk : code[k]? = some (.inst i)) (htarget : i.target? = some name)
    (hj : code[j]? = some (.label name)) :
    heightAt m code (j + 1) = i.next (heightAt m code k) := by
  have hjump := hjumps ((hcode.at_inst hk).2.2 name htarget)
  have hmark := (hcode.at_label hj).2
  have heq := List.inj_on_of_nodup_map (hcode.names ▸ hnodup) hmark hjump rfl
  exact congrArg Prod.snd heq

theorem Climbs.at_pass (hcode : Climbs m 0 code top marks jumps) (hseparated : Separated m code)
    {k : Nat} {name : String} (hk : code[k]? = some (.label name)) :
    heightAt m code (k + 1) = heightAt m code k ∨
      ∃ (j : Nat) (i : Inst), k = j + 1 ∧ code[j]? = some (.inst i) ∧ i.continues = false := by
  have hheight := (hcode.at_label hk).1
  cases hentry : m.entryHeight name with
  | none =>
    rw [hentry, Option.getD_none] at hheight
    exact .inl hheight
  | some height =>
    obtain ⟨hlt, hget⟩ := List.getElem?_eq_some_iff.mp hk
    have hsplit : code = code.take k ++ .label name :: code.drop (k + 1) := by
      rw [← hget, List.cons_getElem_drop_succ, List.take_append_drop]
    obtain ⟨front, i, hfront, hi⟩ := hseparated _ name _ hsplit (by simp [hentry])
    have hlength : k = front.length + 1 := by
      have := congrArg List.length hfront
      rw [List.length_take_of_le hlt.le] at this
      simpa using this
    refine .inr ⟨front.length, i, hlength, ?_, hi⟩
    rw [hsplit, hfront]
    simp

theorem Climbs.at_entry (hcode : Climbs m 0 code top marks jumps) {name : String} {height : Nat}
    (hentry : m.entryHeight name = some height) (hmem : .label name ∈ code) :
    ∃ k : Nat, code[k]? = some (.label name) ∧ heightAt m code (k + 1) = height := by
  obtain ⟨k, hk⟩ := List.mem_iff_getElem?.mp hmem
  refine ⟨k, hk, ?_⟩
  rw [(hcode.at_label hk).1, hentry, Option.getD_some]

/-- A piece without entries adds as many words in the program as by itself. -/
theorem Climbs.rise_piece (hcode : Climbs m 0 code top marks jumps) {h rise : Nat}
    {front c back : Code} (hc : Level m h c (h + rise)) (heq : code = front ++ c ++ back) :
    heightAt m code (front.length + c.length) = heightAt m code front.length + rise := by
  obtain ⟨marks₀, jumps₀, hc, _, hentry⟩ := hc
  obtain ⟨marks', jumps', hpiece, _, _⟩ := hcode.piece heq
  have hsum := hc.rise hentry hpiece
  omega

end Discipline

end Lowering

namespace Module

open Lowering

variable {name source : String} {m : Module}

/-- The code of a checked source text keeps the discipline of the stack. -/
theorem lower_disciplined (hchecked : Module.checked name source = .ok m)
    (hsize : source.length < 2 ^ 63) :
    ∃ code height, m.lower = .ok code ∧ Disciplined m code height := by
  have hm := typed_of_checked hchecked
  have hnodes := balanced_of_checked hchecked hsize
  obtain ⟨functions, lastId, main, hfuncs, hmain, hlower, hnodup, _⟩ := lower_ok hm
  obtain ⟨top, marks, jumps, hcode, hjumps⟩ := climbs_wholeCode hm hnodes hfuncs hmain
  have hseparated := separated_wholeCode hnodes hfuncs hmain
  have hdistinct : (wholeCode functions main).labelNames.Nodup := by
    simpa [wholeCode, Code.labelNames] using hnodup
  refine ⟨wholeCode functions main, heightAt m (wholeCode functions main), hlower, ?_⟩
  exact
    { start := rfl
      main := hcode.at_entry entryHeight_mainLabel (by simp [wholeCode, bodyCode])
      entry := fun f hf => by
        obtain ⟨id, body, front, back, _, heq⟩ := exists_of_mem_funcs hfuncs hf hm.funcs
        refine hcode.at_entry (entryHeight_funcLabel hm.distinct hf) ?_
        simp [wholeCode, bodyCode, heq, funcCode]
      enough := fun k i hk => (hcode.at_inst hk).1.pops_le
      next := fun k i hk => (hcode.at_inst hk).2.1
      pass := fun k name hk => hcode.at_pass hseparated hk
      jump := fun k i name hk htarget => by
        have hmem := hcode.label_mem (hjumps ((hcode.at_inst hk).2.2 name htarget))
        exact ⟨List.mem_iff_getElem?.mp hmem,
          fun j hj => hcode.at_jump hjumps hdistinct hk htarget hj⟩
      call := fun k i hk hop => (hcode.at_inst hk).1.callee hop
      load := fun k i hk hop => (hcode.at_inst hk).1.load_lt hop
      store := fun k i hk hop => (hcode.at_inst hk).1.store_lt hop
      ret := fun k i hk hop => by
        have hpops := (hcode.at_inst hk).1.pops_le
        rwa [Inst.pops, hop] at hpops
      exit := by
        have hlast : (wholeCode functions main)[(bodyCode functions main).length]? =
            some (.inst (.syscall .exit)) := by simp [wholeCode]
        exact ⟨_, by simp [wholeCode], hlast, (hcode.at_inst hlast).1.pops_le⟩
      value := fun e he slots c front back hc heq => by
        have hrise := hnodes _ he slots c slots.length hc (Nat.le_refl _)
        exact hcode.rise_piece hrise.level heq
      bound := fun s hs slots id l front back hl heq => by
        obtain ⟨hslots, hlevel⟩ := hnodes _ hs slots id l hl
        rw [hslots] at hlevel
        exact hcode.rise_piece hlevel heq }

/-- A function with code behind its return, and a loop that calls it. -/
def spinText : String :=
  "def func spin(n: int): int \x7breturn n; let k = n; k + 1;\x7d while (false) spin(2);"

theorem exists_checked_spinText : ∃ m, Module.checked "spin" spinText = .ok m := by
  have hok : (Module.checked "spin" spinText).isOk = true := by decide +kernel
  cases hchecked : Module.checked "spin" spinText with
  | ok m => exact ⟨m, rfl⟩
  | error e => simp [hchecked, Except.isOk, Except.toBool] at hok

theorem lower_disciplined_spinText : ∃ m code height, Module.checked "spin" spinText = .ok m ∧
    spinText.length < 2 ^ 63 ∧ m.lower = .ok code ∧ Disciplined m code height := by
  obtain ⟨m, hchecked⟩ := exists_checked_spinText
  have hsize : spinText.length < 2 ^ 63 := by decide
  obtain ⟨code, height, hlower, hheights⟩ := lower_disciplined hchecked hsize
  exact ⟨m, code, height, hchecked, hsize, hlower, hheights⟩

end Module
end EdeLang
