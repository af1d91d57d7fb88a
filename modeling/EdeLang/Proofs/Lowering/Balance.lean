import EdeLang.Proofs.Lowering.Heights
import EdeLang.Proofs.Lowering.Validity
import EdeLang.Proofs.Syntax.Nodes

/-!
# Balanced code

The code of an expression adds one word to the stack, above the variables and any temporaries. The
code of a statement adds the word of the variable that it declares, if it does, and jumps only
within itself. Both hold of every part of a checked module, by induction over its tree.
-/

namespace EdeLang

/-- The slots that a statement binds. -/
def Stmt.binds : Stmt → Nat
  | .var _ _ _ _ => 1
  | _ => 0

namespace Lowering

variable {m : Module} {n : Nat}

section Elements

variable {h : Nat}

theorem climbs_inst {i : Inst} {h' : Nat} (issued : Issues m i h) (htarget : i.target? = none)
    (hnext : i.next h = h') : Climbs m h [.inst i] h' [] [] := by
  have hone := Climbs.inst issued (.nil (i.next h))
  simp only [htarget] at hone
  exact hnext ▸ hone

theorem climbs_jump {i : Inst} {name : String} {h' : Nat} (issued : Issues m i h)
    (htarget : i.target? = some name) (hnext : i.next h = h') :
    Climbs m h [.inst i] h' [] [(name, h')] := by
  have hone := Climbs.inst issued (.nil (i.next h))
  simp only [htarget] at hone
  exact hnext ▸ hone

theorem climbs_label {name : String} (hentry : m.entryHeight name = none) :
    Climbs m h [.label name] h [(name, h)] [] := by
  have hone : Climbs m h [.label name] _ _ _ := .label (.nil _)
  simpa only [hentry, Option.getD_none] using hone

theorem climbs_entry {name : String} {k : Nat} (hentry : m.entryHeight name = some k) :
    Climbs m h [.label name] k [(name, k)] [] := by
  have hone : Climbs m h [.label name] _ _ _ := .label (.nil _)
  simpa only [hentry, Option.getD_some] using hone

theorem climbs_push (v : Int64) : Climbs m h [push v] (h + 1) [] [] :=
  climbs_inst (.push v h) rfl rfl

theorem climbs_pack {k : Nat} (hk : k < 2 ^ 63) : Climbs m (h + k) [pack k] (h + 1) [] [] := by
  refine climbs_inst (.pack hk (Nat.le_add_left k h)) rfl ?_
  rw [Inst.next, show (Inst.pack k).pops = k from number_pack hk, Nat.add_sub_cancel]
  rfl

theorem climbs_load {k : Nat} (hk : k < h) : Climbs m h [.inst (.sload k)] (h + 1) [] [] :=
  climbs_inst (.load hk) rfl rfl

theorem climbs_store {k : Nat} (hk : k < h) : Climbs m (h + 1) [.inst (.sstore k)] h [] [] :=
  climbs_inst (.store (Nat.add_lt_add_right hk 1)) rfl rfl

theorem climbs_operator (o : BinOp) (left : Ty) :
    Climbs m (h + 2) [op .swap, op (operator o left)] (h + 1) [] [] := by
  have hswap : Climbs m (h + 2) [op .swap] (h + 2) [] [] :=
    climbs_inst (.swap (Nat.le_add_left 2 h)) rfl rfl
  have hop : Climbs m (h + 2) [op (operator o left)] (h + 1) [] [] := by
    refine climbs_inst (.operator o left (Nat.le_add_left 2 h)) ?_ ?_
    · cases o with
      | add => rw [operator]; split <;> rfl
      | sub | mul | div => rfl
    · rw [Inst.next, pops_operator, pushes_operator, Nat.add_sub_cancel]
  exact hswap.append hop

theorem climbs_call {f : Func} (hf : f ∈ m.funcs) (hsize : f.params.length < 2 ^ 63) :
    Climbs m (h + f.params.length) [.inst (.calll (funcLabel f.name) f.params.length)] (h + 1)
      [] [] := by
  refine climbs_inst (.call hf hsize (Nat.le_add_left _ h)) rfl ?_
  rw [Inst.next, show (Inst.calll _ f.params.length).pops = _ from number_calll _ hsize,
    Nat.add_sub_cancel]
  rfl

theorem climbs_pop : Climbs m (h + 1) [op .pop] h [] [] :=
  climbs_inst (.pop (Nat.le_add_left 1 h)) rfl rfl

theorem climbs_ret : Climbs m (h + 1) [op .ret] h [] [] :=
  climbs_inst (.ret (Nat.le_add_left 1 h)) rfl rfl

theorem climbs_pops (k : Nat) : Climbs m (h + k) (List.replicate k (op .pop)) h [] [] := by
  induction k with
  | zero => exact .nil h
  | succ k ih => exact climbs_pop.append ih

end Elements

section Expressions

variable {h : Nat}

mutual

theorem climbs_pushDefault (hn : n < 2 ^ 63) (t : Ty) (ht : t.Narrow n) (h : Nat) :
    Climbs m h (pushDefault t) (h + 1) [] [] := by
  cases t with
  | prim p =>
    cases p with
    | string => exact climbs_pack (Nat.two_pow_pos 63)
    | unit | int | char | bool => exact climbs_push 0
  | array elem => exact climbs_pack (Nat.two_pow_pos 63)
  | func params ret => exact climbs_push 0
  | tuple elems =>
    exact (climbs_pushDefaults hn elems ht.2 h).append (climbs_pack (Nat.lt_of_le_of_lt ht.1 hn))
  | object name fields =>
    exact (climbs_pushFieldDefaults hn fields ht.2 h).append
      (climbs_pack (Nat.lt_of_le_of_lt ht.1 hn))
termination_by structural t

theorem climbs_pushDefaults (hn : n < 2 ^ 63) (ts : List Ty) (hts : Ty.NarrowAll n ts) (h : Nat) :
    Climbs m h (pushDefaults ts) (h + ts.length) [] [] := by
  cases ts with
  | nil => exact .nil h
  | cons t ts =>
    have hrest := climbs_pushDefaults hn ts hts.2 (h + 1)
    rw [Nat.add_right_comm] at hrest
    exact (climbs_pushDefault hn t hts.1 h).append hrest
termination_by structural ts

theorem climbs_pushFieldDefaults (hn : n < 2 ^ 63) (fields : List (String × Ty))
    (hfields : Ty.NarrowFields n fields) (h : Nat) :
    Climbs m h (pushFieldDefaults fields) (h + fields.length) [] [] := by
  cases fields with
  | nil => exact .nil h
  | cons field fields =>
    obtain ⟨name, t⟩ := field
    have hrest := climbs_pushFieldDefaults hn fields hfields.2 (h + 1)
    rw [Nat.add_right_comm] at hrest
    exact (climbs_pushDefault hn t hfields.1 h).append hrest
termination_by structural fields

end

theorem climbs_chars (cs : List Char) :
    Climbs m h (cs.map fun c => push (Int64.ofNat c.toNat)) (h + cs.length) [] [] := by
  induction cs generalizing h with
  | nil => exact .nil h
  | cons c cs ih =>
    have hrest := ih (h := h + 1)
    rw [Nat.add_right_comm] at hrest
    exact (climbs_push _).append hrest

theorem climbs_pushLiteral (hn : n < 2 ^ 63) {value : Literal} (hle : value.weight ≤ n) :
    Climbs m h (pushLiteral value) (h + 1) [] [] := by
  cases value with
  | unit | int v | char c | bool b => exact climbs_push _
  | string s =>
    rw [Literal.weight] at hle
    exact (climbs_chars s.toList).append (climbs_pack (by omega))

/-- The code of the expression pushes one word, above any temporaries. -/
def Pushes (m : Module) (e : Expr) : Prop :=
  ∀ (slots : Slots) (c : Code) (h : Nat), expr slots e = .ok c → slots.length ≤ h →
    Climbs m h c (h + 1) [] []

variable {slots : Slots}

theorem climbs_exprs {es : List Expr} (hes : ∀ e ∈ es, Pushes m e) {c : Code}
    (hc : exprs slots es = .ok c) (hle : slots.length ≤ h) :
    Climbs m h c (h + es.length) [] [] := by
  induction es generalizing h c with
  | nil =>
    cases hc
    exact .nil h
  | cons e es ih =>
    rw [exprs, bind_eq_ok] at hc
    obtain ⟨first, hfirst, hc⟩ := hc
    obtain ⟨rest, hrest, hc⟩ := bind_eq_ok.mp hc
    cases hc
    rw [List.forall_mem_cons] at hes
    have hmore := ih hes.2 hrest (Nat.le_succ_of_le hle)
    rw [Nat.succ_eq_add_one, Nat.add_right_comm] at hmore
    exact (hes.1 slots first h hfirst hle).append hmore

theorem climbs_pushFields (hn : n < 2 ^ 63) {inits : List (String × Expr)}
    (hinits : ∀ i ∈ inits, Pushes m i.2) {fields : List (String × Ty)}
    (hfields : Ty.NarrowFields n fields) {c : Code}
    (hc : pushFields (initCodes slots inits) fields = .ok c) (hle : slots.length ≤ h) :
    Climbs m h c (h + fields.length) [] [] := by
  induction fields generalizing h c with
  | nil =>
    cases hc
    exact .nil h
  | cons field fields ih =>
    obtain ⟨name, t⟩ := field
    rw [pushFields, bind_eq_ok, lookup_initCodes] at hc
    obtain ⟨first, hfirst, hc⟩ := hc
    obtain ⟨rest, hrest, hc⟩ := bind_eq_ok.mp hc
    cases hc
    have hone : Climbs m h first (h + 1) [] [] := by
      cases hlookup : inits.lookup name with
      | none =>
        rw [hlookup] at hfirst
        cases hfirst
        exact climbs_pushDefault hn t hfields.1 h
      | some e =>
        rw [hlookup] at hfirst
        obtain ⟨before, after, rfl, _⟩ := List.lookup_eq_some_iff.mp hlookup
        exact hinits (name, e) (by simp) slots first h hfirst hle
    have hmore := ih hfields.2 hrest (Nat.le_succ_of_le hle)
    rw [Nat.succ_eq_add_one, Nat.add_right_comm] at hmore
    exact hone.append hmore

theorem pushes_literal (hn : n < 2 ^ 63) {value : Literal} (hle : value.weight ≤ n) (info : Info) :
    Pushes m (.literal info value) := by
  intro slots c h hc _
  cases hc
  exact climbs_pushLiteral hn hle

theorem pushes_ident (info : Info) (name : String) : Pushes m (.ident info name) := by
  intro slots c h hc hle
  rw [expr, bind_eq_ok] at hc
  obtain ⟨slot, hslot, hc⟩ := hc
  cases hc
  exact climbs_load (Nat.lt_of_lt_of_le (slot?_lt_length (slotOf_eq_ok.mp hslot)) hle)

theorem pushes_binop {left right : Expr} (hl : Pushes m left) (hr : Pushes m right) (info : Info)
    (o : BinOp) : Pushes m (.binop info o left right) := by
  intro slots c h hc hle
  rw [expr, bind_eq_ok] at hc
  obtain ⟨cr, hcr, hc⟩ := hc
  obtain ⟨cl, hcl, hc⟩ := bind_eq_ok.mp hc
  obtain ⟨type, _, hc⟩ := bind_eq_ok.mp hc
  cases hc
  have hright := hr slots cr h hcr hle
  have hleft := hl slots cl (h + 1) hcl (Nat.le_succ_of_le hle)
  exact (hright.append hleft).append (climbs_operator o type)

theorem pushes_assign {value : Expr} (hv : Pushes m value) (info : Info) (name : String) :
    Pushes m (.assign info name value) := by
  intro slots c h hc hle
  rw [expr, bind_eq_ok] at hc
  obtain ⟨v, hvalue, hc⟩ := hc
  obtain ⟨slot, hslot, hc⟩ := bind_eq_ok.mp hc
  cases hc
  have hlt : slot < h := Nat.lt_of_lt_of_le (slot?_lt_length (slotOf_eq_ok.mp hslot)) hle
  exact (hv slots v h hvalue hle).append ((climbs_store hlt).append (climbs_load hlt))

theorem pushes_packed {es : List Expr} (hes : ∀ e ∈ es, Pushes m e) (hsize : es.length < 2 ^ 63)
    (info : Info) : Pushes m (.array info es) ∧ Pushes m (.tuple info es) := by
  refine ⟨?_, ?_⟩ <;>
  · intro slots c h hc hle
    rw [expr, bind_eq_ok] at hc
    obtain ⟨vs, hvs, hc⟩ := hc
    cases hc
    exact (climbs_exprs hes hvs hle).append (climbs_pack hsize)

theorem pushes_object (hn : n < 2 ^ 63) {inits : List (String × Expr)}
    (hinits : ∀ i ∈ inits, Pushes m i.2) {info : Info} (hinfo : info.Narrow n) (name : String) :
    Pushes m (.object info name inits) := by
  intro slots c h hc hle
  rw [expr, bind_eq_ok] at hc
  obtain ⟨type, htype, hc⟩ := hc
  have hnarrow := hinfo type (typeOf_eq_ok htype)
  split at hc
  · obtain ⟨hlength, hfields⟩ := hnarrow
    obtain ⟨vs, hvs, hc⟩ := bind_eq_ok.mp hc
    cases hc
    exact (climbs_pushFields hn hinits hfields hvs hle).append
      (climbs_pack (Nat.lt_of_le_of_lt hlength hn))
  · cases hc

theorem pushes_call {f : Func} (hf : f ∈ m.funcs) {args : List Expr}
    (hargs : ∀ e ∈ args, Pushes m e) (hlength : args.length = f.params.length)
    (hsize : args.length < 2 ^ 63) (info : Info) : Pushes m (.call info f.name args) := by
  intro slots c h hc hle
  rw [expr, bind_eq_ok] at hc
  obtain ⟨vs, hvs, hc⟩ := hc
  cases hc
  have hvalues := climbs_exprs hargs hvs hle
  rw [hlength] at hvalues hsize ⊢
  exact hvalues.append (climbs_call hf hsize)

theorem pushes_default (hn : n < 2 ^ 63) {info : Info} (hinfo : info.Narrow n) (type : TypeExpr) :
    Pushes m (.default info type) := by
  intro slots c h hc _
  rw [expr, bind_eq_ok] at hc
  obtain ⟨found, hfound, hc⟩ := hc
  cases hc
  exact climbs_pushDefault hn found (hinfo found (typeOf_eq_ok hfound)) h

end Expressions

/-- Code whose jumps stay within it, and that is not entered from elsewhere. -/
def Level (m : Module) (h : Nat) (c : Code) (h' : Nat) : Prop :=
  ∃ marks jumps, Climbs m h c h' marks jumps ∧ jumps ⊆ marks ∧
    ∀ p ∈ marks, m.entryHeight p.1 = none

section Statements

variable {h : Nat}

theorem Climbs.level {h' : Nat} {c : Code} (hc : Climbs m h c h' [] []) : Level m h c h' :=
  ⟨[], [], hc, by simp, by simp⟩

theorem Level.append {h' h'' : Nat} {c d : Code} (hc : Level m h c h') (hd : Level m h' d h'') :
    Level m h (c ++ d) h'' := by
  obtain ⟨marks, jumps, hc, hjumps, hentry⟩ := hc
  obtain ⟨marks', jumps', hd, hjumps', hentry'⟩ := hd
  refine ⟨marks ++ marks', jumps ++ jumps', hc.append hd, ?_, ?_⟩
  · exact List.append_subset.mpr ⟨List.subset_append_of_subset_left _ hjumps,
      List.subset_append_of_subset_right _ hjumps'⟩
  · exact List.forall_mem_append.mpr ⟨hentry, hentry'⟩

/-- The words of the variables of a scope are taken from the stack where it closes. -/
theorem Level.closed {outer : Slots} {inner : Lowered}
    (hcode : Level m outer.length inner.code inner.slots.length)
    (hle : outer.length ≤ inner.slots.length) :
    Level m outer.length (closed outer inner).code outer.length := by
  have hpops := climbs_pops (m := m) (h := outer.length) (inner.slots.length - outer.length)
  rw [Nat.add_sub_cancel' hle] at hpops
  exact hcode.append hpops.level

theorem climbs_jumpl {name : String} : Climbs m h [.inst (.jumpl name)] h [] [(name, h)] :=
  climbs_jump (.jump name h) rfl rfl

theorem climbs_jumpzl {name : String} :
    Climbs m (h + 1) [.inst (.jumpzl name)] h [] [(name, h)] :=
  climbs_jump (.jumpz name (Nat.le_add_left 1 h)) rfl rfl

section Branches

variable {t y no : Code} (id : Nat)

theorem entryHeight_elseLabel : m.entryHeight (elseLabel id) = none :=
  entryHeight_numbered (show elseLabel id ∈ numbered id by simp [numbered])

theorem entryHeight_endIfLabel : m.entryHeight (endIfLabel id) = none :=
  entryHeight_numbered (show endIfLabel id ∈ numbered id by simp [numbered])

theorem entryHeight_testLabel : m.entryHeight (testLabel id) = none :=
  entryHeight_numbered (show testLabel id ∈ numbered id by simp [numbered])

theorem entryHeight_endLoopLabel : m.entryHeight (endLoopLabel id) = none :=
  entryHeight_numbered (show endLoopLabel id ∈ numbered id by simp [numbered])

theorem level_cond (ht : Climbs m h t (h + 1) [] []) (hy : Level m h y h) :
    Level m h (t ++ [.inst (.jumpzl (elseLabel id))] ++ y ++ [.inst (.jumpl (endIfLabel id)),
      .label (elseLabel id), .label (endIfLabel id)]) h := by
  obtain ⟨marks, jumps, hy, hjumps, hentry⟩ := hy
  have helse := entryHeight_elseLabel (m := m) id
  have hend := entryHeight_endIfLabel (m := m) id
  refine ⟨_, _, ((ht.append climbs_jumpzl).append hy).append
    (climbs_jumpl.append ((climbs_label helse).append (climbs_label hend))), ?_, ?_⟩
  · grind
  · grind

theorem level_condElse (ht : Climbs m h t (h + 1) [] []) (hy : Level m h y h)
    (hno : Level m h no h) :
    Level m h (t ++ [.inst (.jumpzl (elseLabel id))] ++ y ++ [.inst (.jumpl (endIfLabel id)),
      .label (elseLabel id)] ++ no ++ [.label (endIfLabel id)]) h := by
  obtain ⟨marks, jumps, hy, hjumps, hentry⟩ := hy
  obtain ⟨marks', jumps', hno, hjumps', hentry'⟩ := hno
  have helse := entryHeight_elseLabel (m := m) id
  have hend := entryHeight_endIfLabel (m := m) id
  refine ⟨_, _, ((((ht.append climbs_jumpzl).append hy).append
    (climbs_jumpl.append (climbs_label helse))).append hno).append (climbs_label hend), ?_, ?_⟩
  · grind
  · grind

theorem level_loop (ht : Climbs m h t (h + 1) [] []) (hy : Level m h y h) :
    Level m h (.label (testLabel id) :: t ++ [.inst (.jumpzl (endLoopLabel id))] ++ y ++
      [.inst (.jumpl (testLabel id)), .label (endLoopLabel id)]) h := by
  obtain ⟨marks, jumps, hy, hjumps, hentry⟩ := hy
  have htest := entryHeight_testLabel (m := m) id
  have hend := entryHeight_endLoopLabel (m := m) id
  refine ⟨_, _, ((((climbs_label htest).append ht).append climbs_jumpzl).append hy).append
    (climbs_jumpl.append (climbs_label hend)), ?_, ?_⟩
  · grind
  · grind

end Branches

/-- The code of the statement adds as many words to those of the slots as it binds. -/
def Binds (m : Module) (s : Stmt) : Prop :=
  ∀ (slots : Slots) (id : Nat) (l : Lowered), stmt slots id s = .ok l →
    l.slots.length = slots.length + s.binds ∧ Level m slots.length l.code l.slots.length

theorem level_stmts {ss : List Stmt} (hss : ∀ s ∈ ss, Binds m s) {slots : Slots} {id : Nat}
    {l : Lowered} (hl : stmts slots id ss = .ok l) :
    slots.length ≤ l.slots.length ∧ Level m slots.length l.code l.slots.length := by
  induction ss generalizing slots id l with
  | nil =>
    cases hl
    exact ⟨Nat.le_refl _, (Climbs.nil _).level⟩
  | cons s ss ih =>
    rw [stmts, bind_eq_ok] at hl
    obtain ⟨first, hfirst, hl⟩ := hl
    obtain ⟨rest, hrest, hl⟩ := bind_eq_ok.mp hl
    cases hl
    rw [List.forall_mem_cons] at hss
    obtain ⟨hslots, hcode⟩ := hss.1 slots id first hfirst
    obtain ⟨hle, hcodes⟩ := ih hss.2 hrest
    exact ⟨by show slots.length ≤ rest.slots.length; omega, hcode.append hcodes⟩

theorem Binds.closed {s : Stmt} (hs : Binds m s) {slots : Slots} {id : Nat} {l : Lowered}
    (hl : stmt slots id s = .ok l) :
    Level m slots.length (Lowering.closed slots l).code slots.length := by
  obtain ⟨hslots, hcode⟩ := hs slots id l hl
  exact hcode.closed (by omega)

theorem binds_var (hn : n < 2 ^ 63) {type : Option TypeExpr} {init : Option Expr}
    (htype : type.elim True fun t => t.info.Narrow n) (hinit : ∀ e, init = some e → Pushes m e)
    (info : Info) (name : String) : Binds m (.var info name type init) := by
  intro slots id l hl
  rw [stmt, bind_eq_ok] at hl
  obtain ⟨v, hv, hl⟩ := hl
  cases hl
  refine ⟨rfl, Climbs.level ?_⟩
  rw [List.length_cons]
  cases init with
  | some e => exact hinit e rfl slots v _ (by cases type <;> exact hv) (Nat.le_refl _)
  | none =>
    cases type with
    | none => cases hv
    | some t =>
      obtain ⟨found, hfound, rfl⟩ := map_eq_ok hv
      exact climbs_pushDefault hn found (htype found (typeOf_eq_ok hfound)) _

theorem binds_expr {e : Expr} (he : Pushes m e) (info : Info) : Binds m (.expr info e) := by
  intro slots id l hl
  rw [stmt, bind_eq_ok] at hl
  obtain ⟨v, hv, hl⟩ := hl
  cases hl
  exact ⟨rfl, ((he slots v _ hv (Nat.le_refl _)).append climbs_pop).level⟩

theorem binds_block {body : List Stmt} (hbody : ∀ s ∈ body, Binds m s) (info : Info) :
    Binds m (.block info body) := by
  intro slots id l hl
  rw [stmt, bind_eq_ok] at hl
  obtain ⟨inner, hinner, hl⟩ := hl
  cases hl
  obtain ⟨hle, hcode⟩ := level_stmts hbody hinner
  exact ⟨rfl, hcode.closed hle⟩

theorem binds_cond {test : Expr} {yes : Stmt} (htest : Pushes m test) (hyes : Binds m yes)
    (info : Info) : Binds m (.cond info test yes none) := by
  intro slots id l hl
  rw [stmt, bind_eq_ok] at hl
  obtain ⟨t, ht, hl⟩ := hl
  obtain ⟨y, hy, hl⟩ := bind_eq_ok.mp hl
  cases hl
  exact ⟨rfl, level_cond _ (htest slots t _ ht (Nat.le_refl _)) (hyes.closed hy)⟩

theorem binds_condElse {test : Expr} {yes no : Stmt} (htest : Pushes m test) (hyes : Binds m yes)
    (hno : Binds m no) (info : Info) : Binds m (.cond info test yes (some no)) := by
  intro slots id l hl
  rw [stmt, bind_eq_ok] at hl
  obtain ⟨t, ht, hl⟩ := hl
  obtain ⟨y, hy, hl⟩ := bind_eq_ok.mp hl
  obtain ⟨o, ho, hl⟩ := bind_eq_ok.mp hl
  cases hl
  exact ⟨rfl, level_condElse _ (htest slots t _ ht (Nat.le_refl _)) (hyes.closed hy)
    (hno.closed ho)⟩

theorem binds_loop {test : Expr} {body : Stmt} (htest : Pushes m test) (hbody : Binds m body)
    (info : Info) : Binds m (.loop info test body) := by
  intro slots id l hl
  rw [stmt, bind_eq_ok] at hl
  obtain ⟨t, ht, hl⟩ := hl
  obtain ⟨b, hb, hl⟩ := bind_eq_ok.mp hl
  cases hl
  exact ⟨rfl, level_loop _ (htest slots t _ ht (Nat.le_refl _)) (hbody.closed hb)⟩

/-- Behind a return the height is as if control went on, without the result. -/
theorem binds_ret {value : Option Expr} (hvalue : ∀ e, value = some e → Pushes m e)
    (info : Info) : Binds m (.ret info value) := by
  intro slots id l hl
  cases value with
  | none =>
    cases hl
    exact ⟨rfl, ((climbs_push 0).append climbs_ret).level⟩
  | some e =>
    rw [stmt, bind_eq_ok] at hl
    obtain ⟨v, hv, hl⟩ := hl
    cases hl
    exact ⟨rfl, ((hvalue e rfl slots v _ hv (Nat.le_refl _)).append climbs_ret).level⟩

end Statements

section Trees

/-- What the code of a node does to the height. -/
def Balanced (m : Module) : Node → Prop
  | .expr e => Pushes m e
  | .stmt s => Binds m s
  | .type _ | .definition _ | .module _ => True

theorem balanced_type (t : TypeExpr) : ∀ node ∈ t.nodes, Balanced m node := by
  intro node hnode
  obtain ⟨t', rfl⟩ := TypeExpr.eq_type_of_mem_nodes t hnode
  trivial

theorem balanced_items (items : List (Item TypeExpr)) :
    ∀ node ∈ TypeExpr.nodesItems items, Balanced m node := by
  intro node hnode
  obtain ⟨t', rfl⟩ := TypeExpr.eq_type_of_mem_nodesItems items hnode
  trivial

mutual

theorem balanced_expr (hn : n < 2 ^ 63) (e : Expr) (hnarrow : e.Narrow n) (hweight : e.weight ≤ n)
    {ctx : Context} {t : Ty} (htyped : e.Typed m.signatures ctx t) :
    ∀ node ∈ e.nodes, Balanced m node := by
  cases e with
  | literal info value =>
    rw [Expr.weight] at hweight
    exact List.forall_mem_singleton.mpr (pushes_literal hn hweight info)
  | ident info name => exact List.forall_mem_singleton.mpr (pushes_ident info name)
  | binop info o left right =>
    obtain ⟨_, l, r, hl, hr, _⟩ := htyped
    rw [Expr.weight] at hweight
    have hleft := balanced_expr hn left hnarrow.1 (by omega) hl
    have hright := balanced_expr hn right hnarrow.2 (by omega) hr
    refine List.forall_mem_cons.mpr ⟨?_, List.forall_mem_append.mpr ⟨hleft, hright⟩⟩
    exact pushes_binop (hleft _ left.self_mem_nodes) (hright _ right.self_mem_nodes) info o
  | assign info name value =>
    obtain ⟨_, _, found, hv, _⟩ := htyped
    rw [Expr.weight] at hweight
    have hvalue := balanced_expr hn value hnarrow (by omega) hv
    refine List.forall_mem_cons.mpr ⟨?_, hvalue⟩
    exact pushes_assign (hvalue _ value.self_mem_nodes) info name
  | array info elems =>
    obtain ⟨_, elem, _, hes⟩ := htyped
    obtain ⟨types, hes, _⟩ := hes.exists_types
    rw [Expr.weight] at hweight
    have hlength := Expr.length_le_weightAll elems
    have helems := balanced_exprs hn elems hnarrow (by omega) hes
    refine List.forall_mem_cons.mpr ⟨?_, helems⟩
    exact (pushes_packed (fun e he => helems _ (Expr.mem_nodesAll he)) (by omega) info).1
  | tuple info elems =>
    obtain ⟨_, types, _, hes⟩ := htyped
    rw [Expr.weight] at hweight
    have hlength := Expr.length_le_weightAll elems
    have helems := balanced_exprs hn elems hnarrow (by omega) hes
    refine List.forall_mem_cons.mpr ⟨?_, helems⟩
    exact (pushes_packed (fun e he => helems _ (Expr.mem_nodesAll he)) (by omega) info).2
  | object info name inits =>
    obtain ⟨_, fields, _, _, hinits⟩ := htyped
    rw [Expr.weight] at hweight
    have hparts := balanced_inits hn inits hnarrow.2 (by omega) hinits
    refine List.forall_mem_cons.mpr ⟨?_, hparts⟩
    exact pushes_object hn (fun i hi => hparts _ (Expr.mem_nodesInits hi)) hnarrow.1 name
  | call info name args =>
    obtain ⟨_, params, hsig, hes⟩ := htyped
    obtain ⟨types, hes, hsame⟩ := hes.exists_types
    obtain ⟨f, hf, rfl, hparams⟩ := Module.exists_func_of_signature hsig
    rw [Expr.weight] at hweight
    have hlength := Expr.length_le_weightAll args
    have hargs := balanced_exprs hn args hnarrow (by omega) hes
    have hcount : args.length = f.params.length := by
      rw [hes.length_eq, hsame.length_eq, hparams]
    refine List.forall_mem_cons.mpr ⟨?_, hargs⟩
    exact pushes_call hf (fun e he => hargs _ (Expr.mem_nodesAll he)) hcount (by omega) info
  | default info type =>
    refine List.forall_mem_cons.mpr ⟨?_, balanced_type type⟩
    exact pushes_default hn hnarrow type
termination_by structural e

theorem balanced_exprs (hn : n < 2 ^ 63) (es : List Expr) (hnarrow : Expr.NarrowAll n es)
    (hweight : Expr.weightAll es ≤ n) {ctx : Context} {types : List Ty}
    (htyped : Expr.TypedAll m.signatures ctx es types) :
    ∀ node ∈ Expr.nodesAll es, Balanced m node := by
  cases es with
  | nil => exact List.forall_mem_nil _
  | cons e es =>
    obtain ⟨t, ts, _, he, hes⟩ := htyped
    rw [Expr.weightAll] at hweight
    exact List.forall_mem_append.mpr ⟨balanced_expr hn e hnarrow.1 (by omega) he,
      balanced_exprs hn es hnarrow.2 (by omega) hes⟩
termination_by structural es

theorem balanced_inits (hn : n < 2 ^ 63) (inits : List (String × Expr))
    (hnarrow : Expr.NarrowInits n inits) (hweight : Expr.weightInits inits ≤ n) {ctx : Context}
    {fields : List (String × Ty)} (htyped : Expr.TypedInits m.signatures ctx fields inits) :
    ∀ node ∈ Expr.nodesInits inits, Balanced m node := by
  cases inits with
  | nil => exact List.forall_mem_nil _
  | cons init inits =>
    obtain ⟨name, e⟩ := init
    obtain ⟨⟨_, found, _, he, _⟩, hinits⟩ := htyped
    rw [Expr.weightInits] at hweight
    exact List.forall_mem_append.mpr ⟨balanced_expr hn e hnarrow.1 (by omega) he,
      balanced_inits hn inits hnarrow.2 (by omega) hinits⟩
termination_by structural inits

end

mutual

theorem balanced_stmt (hn : n < 2 ^ 63) (s : Stmt) (hnarrow : s.Narrow n) (hweight : s.weight ≤ n)
    {ret : Option Ty} {ctx : Context} (htyped : s.Typed m.signatures ret ctx) :
    ∀ node ∈ s.nodes, Balanced m node := by
  cases s with
  | var info name type init =>
    obtain ⟨t, _, hinit⟩ := htyped
    rw [Stmt.weight] at hweight
    have htype : ∀ node ∈ type.elim [] TypeExpr.nodes, Balanced m node := by
      cases type with
      | none => exact List.forall_mem_nil _
      | some written => exact balanced_type written
    have hvalue : ∀ node ∈ init.elim [] Expr.nodes, Balanced m node := by
      cases init with
      | none => exact List.forall_mem_nil _
      | some e =>
        obtain ⟨found, he, _⟩ := hinit
        rw [Option.elim_some] at hweight
        exact balanced_expr hn e hnarrow.2 (by omega) he
    refine List.forall_mem_cons.mpr ⟨?_, List.forall_mem_append.mpr ⟨htype, hvalue⟩⟩
    refine binds_var hn hnarrow.1 ?_ info name
    rintro e rfl
    exact hvalue _ e.self_mem_nodes
  | expr info e =>
    obtain ⟨t, he⟩ := htyped
    rw [Stmt.weight] at hweight
    have hvalue := balanced_expr hn e hnarrow (by omega) he
    exact List.forall_mem_cons.mpr ⟨binds_expr (hvalue _ e.self_mem_nodes) info, hvalue⟩
  | block info body =>
    rw [Stmt.weight] at hweight
    have hbody := balanced_stmts hn body hnarrow (by omega) htyped
    refine List.forall_mem_cons.mpr ⟨?_, hbody⟩
    exact binds_block (fun s hs => hbody _ (Stmt.mem_nodesAll hs)) info
  | cond info test yes no =>
    cases no with
    | none =>
      rw [Stmt.weight] at hweight
      have htest := balanced_expr hn test hnarrow.1 (by omega) htyped.1
      have hyes := balanced_stmt hn yes hnarrow.2 (by omega) htyped.2
      refine List.forall_mem_cons.mpr ⟨?_, List.forall_mem_append.mpr ⟨htest, hyes⟩⟩
      exact binds_cond (htest _ test.self_mem_nodes) (hyes _ yes.self_mem_nodes) info
    | some no =>
      rw [Stmt.weight] at hweight
      have htest := balanced_expr hn test hnarrow.1 (by omega) htyped.1
      have hyes := balanced_stmt hn yes hnarrow.2.1 (by omega) htyped.2.1
      have hno := balanced_stmt hn no hnarrow.2.2 (by omega) htyped.2.2
      refine List.forall_mem_cons.mpr ⟨?_, List.forall_mem_append.mpr
        ⟨List.forall_mem_append.mpr ⟨htest, hyes⟩, hno⟩⟩
      exact binds_condElse (htest _ test.self_mem_nodes) (hyes _ yes.self_mem_nodes)
        (hno _ no.self_mem_nodes) info
  | loop info test body =>
    rw [Stmt.weight] at hweight
    have htest := balanced_expr hn test hnarrow.1 (by omega) htyped.1
    have hbody := balanced_stmt hn body hnarrow.2 (by omega) htyped.2
    refine List.forall_mem_cons.mpr ⟨?_, List.forall_mem_append.mpr ⟨htest, hbody⟩⟩
    exact binds_loop (htest _ test.self_mem_nodes) (hbody _ body.self_mem_nodes) info
  | ret info value =>
    rw [Stmt.weight] at hweight
    have hvalue : ∀ node ∈ value.elim [] Expr.nodes, Balanced m node := by
      cases value with
      | none => exact List.forall_mem_nil _
      | some e =>
        obtain ⟨_, found, _, he, _⟩ := htyped
        rw [Option.elim_some] at hweight
        exact balanced_expr hn e hnarrow (by omega) he
    refine List.forall_mem_cons.mpr ⟨binds_ret ?_ info, hvalue⟩
    rintro e rfl
    exact hvalue _ e.self_mem_nodes
termination_by structural s

theorem balanced_stmts (hn : n < 2 ^ 63) (ss : List Stmt) (hnarrow : Stmt.NarrowAll n ss)
    (hweight : Stmt.weightAll ss ≤ n) {ret : Option Ty} {ctx : Context}
    (htyped : Stmt.TypedAll m.signatures ret ctx ss) :
    ∀ node ∈ Stmt.nodesAll ss, Balanced m node := by
  cases ss with
  | nil => exact List.forall_mem_nil _
  | cons s ss =>
    rw [Stmt.weightAll] at hweight
    exact List.forall_mem_append.mpr ⟨balanced_stmt hn s hnarrow.1 (by omega) htyped.1,
      balanced_stmts hn ss hnarrow.2 (by omega) htyped.2⟩
termination_by structural ss

end

/-- All nodes of a module that fits under a bound are balanced. -/
theorem balanced_module (hn : n < 2 ^ 63) (hm : m.Typed) (hnarrow : m.Narrow n)
    (hweight : m.weight ≤ n) : ∀ node ∈ m.nodes, Balanced m node := by
  have hfuncs : ∀ f ∈ m.funcs, ∀ node ∈ f.nodes, Balanced m node := by
    intro f hf
    have hle := Nat.le_trans (Module.weight_le_of_mem_funcs hf) hweight
    rw [Func.weight] at hle
    have hbody := balanced_stmt hn f.body (hnarrow.funcs f hf) (by omega) (hm.funcs f hf).body
    refine List.forall_mem_append.mpr ⟨List.forall_mem_append.mpr
      ⟨balanced_items f.params, balanced_type f.ret⟩, hbody⟩
  have hdefs : ∀ d ∈ m.defs, ∀ node ∈ d.nodes, Balanced m node := by
    intro d hd
    cases d with
    | object info name fields =>
      exact List.forall_mem_cons.mpr ⟨trivial, balanced_items fields⟩
    | func info f =>
      have hf : f ∈ m.funcs := List.mem_filterMap.mpr ⟨_, hd, rfl⟩
      exact List.forall_mem_cons.mpr ⟨trivial, hfuncs f hf⟩
  rw [Module.weight] at hweight
  have hstmts := balanced_stmts hn m.stmts hnarrow.stmts (by omega) hm.stmts
  refine List.forall_mem_cons.mpr ⟨trivial, List.forall_mem_append.mpr ⟨?_, hstmts⟩⟩
  intro node hnode
  obtain ⟨d, hd, hnode⟩ := Def.exists_of_mem_nodesAll hnode
  exact hdefs d hd node hnode

end Trees

end Lowering

/-- All parts of a checked source text are balanced. -/
theorem Module.balanced_of_checked {name source : String} {m : Module}
    (hchecked : Module.checked name source = .ok m)
    (hsize : source.length < 2 ^ 63) : ∀ node ∈ m.nodes, Lowering.Balanced m node := by
  obtain ⟨hweight, hnarrow⟩ := narrow_of_checked hchecked
  exact Lowering.balanced_module hsize (typed_of_checked hchecked) hnarrow hweight

end EdeLang
