import EdeLang.Proofs.Assembly.Resolution
import EdeLang.Proofs.Evaluation.Safety
import EdeLang.Proofs.Lowering.Expressions
import EdeLang.Proofs.Typing.Width

/-!
# Lowered code is a valid program

Slots and counts in the code of a module are bounded by what the module weighs, so none of them
is negative as an operand. With the labels, which differ and are all defined, this makes the code
of every checked source text a program that is assembled.
-/

namespace EdeLang
namespace Lowering

def Signed (code : Code) : Prop := ∀ i, Element.inst i ∈ code → i.wellFormed

section Pieces

variable {c d : Code} {n : Nat}

theorem Signed.nil : Signed [] := fun i hi => by simp at hi

theorem Signed.append (hc : Signed c) (hd : Signed d) : Signed (c ++ d) := by
  intro i hi
  rcases List.mem_append.mp hi with h | h
  · exact hc i h
  · exact hd i h

theorem Signed.label (name : String) (hc : Signed c) : Signed (.label name :: c) := by
  intro i hi
  rcases List.mem_cons.mp hi with h | h
  · cases h
  · exact hc i h

theorem Signed.cons {i : Inst} (hi : i.wellFormed) (hc : Signed c) : Signed (.inst i :: c) := by
  intro j hj
  rcases List.mem_cons.mp hj with h | h
  · cases h
    exact hi
  · exact hc j h

theorem Signed.inst {i : Inst} (hi : i.wellFormed) : Signed [.inst i] := .cons hi .nil

theorem signed_replicate {i : Inst} (hi : i.wellFormed) (k : Nat) :
    Signed (List.replicate k (.inst i)) := by
  intro j hj
  obtain ⟨_, h⟩ := List.mem_replicate.mp hj
  cases h
  exact hi

theorem signed_push (v : Int64) : Signed [push v] := .inst rfl

theorem fits_ofNat (hn : n < 2 ^ 63) {k : Nat} (hk : k ≤ n) : 0 ≤ Int64.ofNat k :=
  Int64.zero_le_ofNat_of_lt (by omega)

theorem wellFormed_sload (hn : n < 2 ^ 63) {k : Nat} (hk : k ≤ n) : (Inst.sload k).wellFormed := by
  simp [Inst.wellFormed, Inst.sload, Opcode.args, Operand.fitAll, Operand.fits, fits_ofNat hn hk]

theorem wellFormed_sstore (hn : n < 2 ^ 63) {k : Nat} (hk : k ≤ n) :
    (Inst.sstore k).wellFormed := by
  simp [Inst.wellFormed, Inst.sstore, Opcode.args, Operand.fitAll, Operand.fits, fits_ofNat hn hk]

theorem signed_pack (hn : n < 2 ^ 63) {k : Nat} (hk : k ≤ n) : Signed [pack k] := by
  apply Signed.inst
  simp [Inst.wellFormed, Inst.pack, Opcode.args, Operand.fitAll, Operand.fits, fits_ofNat hn hk]

theorem wellFormed_calll (hn : n < 2 ^ 63) (name : String) {k : Nat} (hk : k ≤ n) :
    (Inst.calll name k).wellFormed := by
  simp [Inst.wellFormed, Inst.calll, Opcode.args, Operand.fitAll, Operand.fits, fits_ofNat hn hk]

theorem wellFormed_operator (o : BinOp) (left : Ty) :
    (Inst.plain (operator o left)).wellFormed := by
  cases o with
  | add => rw [operator]; split <;> rfl
  | sub | mul | div => rfl

end Pieces

section Expressions

variable {slots : Slots} {n : Nat}

mutual

theorem signed_pushDefault (hn : n < 2 ^ 63) : ∀ t : Ty, t.Narrow n → Signed (pushDefault t)
  | .prim .string, _ | .array _, _ => signed_pack hn (Nat.zero_le n)
  | .prim .unit, _ | .prim .int, _ | .prim .char, _ | .prim .bool, _ | .func _ _, _ =>
    signed_push 0
  | .tuple elems, ⟨hlength, helems⟩ =>
    (signed_pushDefaults hn elems helems).append (signed_pack hn hlength)
  | .object _ fields, ⟨hlength, hfields⟩ =>
    (signed_pushFieldDefaults hn fields hfields).append (signed_pack hn hlength)

theorem signed_pushDefaults (hn : n < 2 ^ 63) : ∀ ts : List Ty, Ty.NarrowAll n ts →
    Signed (pushDefaults ts)
  | [], _ => .nil
  | t :: ts, ⟨ht, hts⟩ => (signed_pushDefault hn t ht).append (signed_pushDefaults hn ts hts)

theorem signed_pushFieldDefaults (hn : n < 2 ^ 63) : ∀ fields : List (String × Ty),
    Ty.NarrowFields n fields → Signed (pushFieldDefaults fields)
  | [], _ => .nil
  | (_, t) :: fields, ⟨ht, hfields⟩ =>
    (signed_pushDefault hn t ht).append (signed_pushFieldDefaults hn fields hfields)

end

theorem signed_pushLiteral (hn : n < 2 ^ 63) {value : Literal} (hle : value.weight ≤ n) :
    Signed (pushLiteral value) := by
  cases value with
  | unit | int v | char c | bool b => exact signed_push _
  | string s =>
    rw [Literal.weight] at hle
    refine Signed.append ?_ (signed_pack hn (by omega))
    intro i hi
    obtain ⟨c, _, h⟩ := List.mem_map.mp hi
    cases h
    rfl

theorem slot?_lt_length {name : String} {k : Nat} (h : slots.slot? name = some k) :
    k < slots.length := by
  induction slots with
  | nil => cases h
  | cons m slots ih =>
    rw [Slots.slot?] at h
    split at h
    · cases h
      exact Nat.lt_succ_self _
    · exact Nat.lt_succ_of_lt (ih h)

theorem typeOf_eq_ok {info : Info} {t : Ty} (h : typeOf info = .ok t) : info.type = some t := by
  unfold typeOf at h
  split at h
  · next type htype => cases h; exact htype
  · cases h

theorem pushFields_signed (hn : n < 2 ^ 63) {inits : List (String × Except LowerError Code)}
    (hinits : ∀ field code, inits.lookup field = some (.ok code) → Signed code) :
    ∀ (fields : List (String × Ty)) {code : Code}, Ty.NarrowFields n fields →
      pushFields inits fields = .ok code → Signed code
  | [], code, _, h => by
    cases h
    exact .nil
  | (field, type) :: fields, code, ⟨htype, hfields⟩, h => by
    rw [pushFields, bind_eq_ok] at h
    obtain ⟨first, hfirst, h⟩ := h
    obtain ⟨rest, hrest, h⟩ := bind_eq_ok.mp h
    cases h
    refine Signed.append ?_ (pushFields_signed hn hinits fields hfields hrest)
    cases hlookup : inits.lookup field with
    | none =>
      rw [hlookup] at hfirst
      cases hfirst
      exact signed_pushDefault hn type htype
    | some r =>
      rw [hlookup] at hfirst
      cases hfirst
      exact hinits field first hlookup

mutual

/-- The code of an expression is well formed where its slots and its weight fit under a bound. -/
theorem expr_signed (hn : n < 2 ^ 63) : ∀ (e : Expr) {code : Code}, e.Narrow n →
    slots.length + e.weight ≤ n → expr slots e = .ok code → Signed code
  | .literal info value, code, _, hle, h => by
    cases h
    rw [Expr.weight] at hle
    exact signed_pushLiteral hn (by omega)
  | .ident info name, code, _, hle, h => by
    rw [expr, bind_eq_ok] at h
    obtain ⟨slot, hslot, h⟩ := h
    cases h
    have hlt := slot?_lt_length (slotOf_eq_ok.mp hslot)
    exact .inst (wellFormed_sload hn (by omega))
  | .binop info o left right, code, ⟨hl, hr⟩, hle, h => by
    rw [expr, bind_eq_ok] at h
    obtain ⟨cr, hcr, h⟩ := h
    obtain ⟨cl, hcl, h⟩ := bind_eq_ok.mp h
    obtain ⟨type, _, h⟩ := bind_eq_ok.mp h
    cases h
    rw [Expr.weight] at hle
    have hright := expr_signed hn right hr (by omega) hcr
    have hleft := expr_signed hn left hl (by omega) hcl
    exact (hright.append hleft).append (.cons rfl (.inst (wellFormed_operator o type)))
  | .assign info name value, code, hv, hle, h => by
    rw [expr, bind_eq_ok] at h
    obtain ⟨v, hvalue, h⟩ := h
    obtain ⟨slot, hslot, h⟩ := bind_eq_ok.mp h
    cases h
    rw [Expr.weight] at hle
    have hlt := slot?_lt_length (slotOf_eq_ok.mp hslot)
    exact (expr_signed hn value hv (by omega) hvalue).append
      (.cons (wellFormed_sstore hn (by omega)) (.inst (wellFormed_sload hn (by omega))))
  | .array info elems, code, helems, hle, h | .tuple info elems, code, helems, hle, h => by
    rw [expr, bind_eq_ok] at h
    obtain ⟨vs, hvs, h⟩ := h
    cases h
    rw [Expr.weight] at hle
    have hlength := Expr.length_le_weightAll elems
    exact (exprs_signed hn elems helems (by omega) hvs).append (signed_pack hn (by omega))
  | .object info name inits, code, ⟨hinfo, hinits⟩, hle, h => by
    rw [expr, bind_eq_ok] at h
    obtain ⟨type, htype, h⟩ := h
    rw [Expr.weight] at hle
    have hnarrow := hinfo type (typeOf_eq_ok htype)
    split at h
    · next declared =>
      obtain ⟨hlength, hfields⟩ := hnarrow
      obtain ⟨vs, hvs, h⟩ := bind_eq_ok.mp h
      cases h
      have hcodes := initCodes_signed hn inits hinits (by omega)
      exact (pushFields_signed hn hcodes declared hfields hvs).append (signed_pack hn hlength)
    · cases h
  | .call info name args, code, hargs, hle, h => by
    rw [expr, bind_eq_ok] at h
    obtain ⟨vs, hvs, h⟩ := h
    cases h
    rw [Expr.weight] at hle
    have hlength := Expr.length_le_weightAll args
    exact (exprs_signed hn args hargs (by omega) hvs).append
      (.inst (wellFormed_calll hn _ (by omega)))
  | .default info type, code, hinfo, _, h => by
    rw [expr, bind_eq_ok] at h
    obtain ⟨found, hfound, h⟩ := h
    cases h
    exact signed_pushDefault hn found (hinfo found (typeOf_eq_ok hfound))

theorem exprs_signed (hn : n < 2 ^ 63) : ∀ (es : List Expr) {code : Code}, Expr.NarrowAll n es →
    slots.length + Expr.weightAll es ≤ n → exprs slots es = .ok code → Signed code
  | [], code, _, _, h => by
    cases h
    exact .nil
  | e :: es, code, ⟨he, hes⟩, hle, h => by
    rw [exprs, bind_eq_ok] at h
    obtain ⟨first, hfirst, h⟩ := h
    obtain ⟨rest, hrest, h⟩ := bind_eq_ok.mp h
    cases h
    rw [Expr.weightAll] at hle
    exact (expr_signed hn e he (by omega) hfirst).append (exprs_signed hn es hes (by omega) hrest)

theorem initCodes_signed (hn : n < 2 ^ 63) : ∀ (inits : List (String × Expr)),
    Expr.NarrowInits n inits → slots.length + Expr.weightInits inits ≤ n →
      ∀ field code, (initCodes slots inits).lookup field = some (.ok code) → Signed code
  | [], _, _, field, code, h => by simp [initCodes] at h
  | (m, e) :: inits, ⟨he, hinits⟩, hle, field, code, h => by
    rw [Expr.weightInits] at hle
    rw [initCodes, List.lookup_cons] at h
    cases hm : field == m with
    | true =>
      rw [hm] at h
      exact expr_signed hn e he (by omega) (Option.some.inj h)
    | false =>
      rw [hm] at h
      exact initCodes_signed hn inits hinits (by omega) field code h

end

end Expressions

section Statements

variable {n : Nat}

theorem Signed.closed {inner : Lowered} (h : Signed inner.code) (outer : Slots) :
    Signed (closed outer inner).code :=
  h.append (signed_replicate rfl _)

theorem initial_signed (hn : n < 2 ^ 63) {slots : Slots} {name : String} {type : Option TypeExpr}
    {init : Option Expr} {code : Code} (htype : type.elim True fun t => t.info.Narrow n)
    (hinit : init.elim True (Expr.Narrow n)) (hle : slots.length + init.elim 0 Expr.weight ≤ n)
    (h : initial slots name type init = .ok code) : Signed code := by
  cases init with
  | some e => exact expr_signed hn e hinit hle (by cases type <;> exact h)
  | none =>
    cases type with
    | none => cases h
    | some t =>
      obtain ⟨found, hfound, rfl⟩ := map_eq_ok h
      exact signed_pushDefault hn found (htype found (typeOf_eq_ok hfound))

mutual

/-- The code of a statement is well formed where its slots and its weight fit under a bound. It
takes no more new slots than it weighs. -/
theorem stmt_signed (hn : n < 2 ^ 63) : ∀ (s : Stmt) {slots : Slots} {lastId : Nat} {l : Lowered},
    s.Narrow n → slots.length + s.weight ≤ n → stmt slots lastId s = .ok l →
      Signed l.code ∧ l.slots.length ≤ slots.length + s.weight
  | .var info name type init, slots, lastId, l, ⟨htype, hinit⟩, hle, h => by
    rw [stmt, bind_eq_ok] at h
    obtain ⟨v, hv, h⟩ := h
    cases h
    rw [Stmt.weight] at hle ⊢
    refine ⟨initial_signed hn htype hinit (by omega) hv, ?_⟩
    rw [List.length_cons]
    omega
  | .expr info e, slots, lastId, l, he, hle, h => by
    rw [stmt, bind_eq_ok] at h
    obtain ⟨v, hv, h⟩ := h
    cases h
    rw [Stmt.weight] at hle
    exact ⟨(expr_signed hn e he (by omega) hv).append (.inst rfl), Nat.le_add_right _ _⟩
  | .block info body, slots, lastId, l, hbody, hle, h => by
    rw [stmt, bind_eq_ok] at h
    obtain ⟨inner, hinner, h⟩ := h
    cases h
    rw [Stmt.weight] at hle
    exact ⟨(stmts_signed hn body hbody (by omega) hinner).1.closed slots, Nat.le_add_right _ _⟩
  | .cond info test yes none, slots, lastId, l, ⟨ht, hy⟩, hle, h => by
    rw [stmt, bind_eq_ok] at h
    obtain ⟨t, htest, h⟩ := h
    obtain ⟨y, hyes, h⟩ := bind_eq_ok.mp h
    cases h
    rw [Stmt.weight] at hle
    have htest := expr_signed hn test ht (by omega) htest
    have hyes := (stmt_signed hn yes hy (by omega) hyes).1.closed slots
    exact ⟨((htest.append (.inst rfl)).append hyes).append (.cons rfl (.label _ (.label _ .nil))),
      Nat.le_add_right _ _⟩
  | .cond info test yes (some no), slots, lastId, l, ⟨ht, hy, ho⟩, hle, h => by
    rw [stmt, bind_eq_ok] at h
    obtain ⟨t, htest, h⟩ := h
    obtain ⟨y, hyes, h⟩ := bind_eq_ok.mp h
    obtain ⟨o, hno, h⟩ := bind_eq_ok.mp h
    cases h
    rw [Stmt.weight] at hle
    have htest := expr_signed hn test ht (by omega) htest
    have hyes := (stmt_signed hn yes hy (by omega) hyes).1.closed slots
    have hno := (stmt_signed hn no ho (by omega) hno).1.closed slots
    exact ⟨((((htest.append (.inst rfl)).append hyes).append (.cons rfl (.label _ .nil))).append
      hno).append (.label _ .nil), Nat.le_add_right _ _⟩
  | .loop info test body, slots, lastId, l, ⟨ht, hb⟩, hle, h => by
    rw [stmt, bind_eq_ok] at h
    obtain ⟨t, htest, h⟩ := h
    obtain ⟨b, hbody, h⟩ := bind_eq_ok.mp h
    cases h
    rw [Stmt.weight] at hle
    have htest := expr_signed hn test ht (by omega) htest
    have hbody := (stmt_signed hn body hb (by omega) hbody).1.closed slots
    exact ⟨.label _ (((htest.append (.inst rfl)).append hbody).append
      (.cons rfl (.label _ .nil))), Nat.le_add_right _ _⟩
  | .ret info (some e), slots, lastId, l, he, hle, h => by
    rw [stmt, bind_eq_ok] at h
    obtain ⟨v, hv, h⟩ := h
    cases h
    simp only [Stmt.weight, Option.elim_some] at hle
    exact ⟨(expr_signed hn e he (by omega) hv).append (.inst rfl), Nat.le_add_right _ _⟩
  | .ret info none, slots, lastId, l, _, _, h => by
    cases h
    exact ⟨.cons rfl (.inst rfl), Nat.le_add_right _ _⟩

theorem stmts_signed (hn : n < 2 ^ 63) : ∀ (ss : List Stmt) {slots : Slots} {lastId : Nat}
    {l : Lowered}, Stmt.NarrowAll n ss → slots.length + Stmt.weightAll ss ≤ n →
      stmts slots lastId ss = .ok l →
        Signed l.code ∧ l.slots.length ≤ slots.length + Stmt.weightAll ss
  | [], slots, lastId, l, _, _, h => by
    cases h
    exact ⟨.nil, Nat.le_refl _⟩
  | s :: ss, slots, lastId, l, ⟨hs, hss⟩, hle, h => by
    rw [stmts, bind_eq_ok] at h
    obtain ⟨first, hfirst, h⟩ := h
    obtain ⟨rest, hrest, h⟩ := bind_eq_ok.mp h
    cases h
    rw [Stmt.weightAll] at hle ⊢
    obtain ⟨hcode, hslots⟩ := stmt_signed hn s hs (by omega) hfirst
    obtain ⟨hcodes, hmore⟩ := stmts_signed hn ss hss (by omega) hrest
    exact ⟨hcode.append hcodes, by show rest.slots.length ≤ _; omega⟩

end

theorem status_signed (hn : n < 2 ^ 63) {s : Stmt} {slots : Slots} {lastId : Nat} {code : Code}
    (hs : s.Narrow n) (hle : slots.length + s.weight ≤ n) (h : status slots lastId s = .ok code) :
    Signed code := by
  -- a last statement that is no scalar expression is followed by a zero
  have hzero : ∀ l, stmt slots lastId s = .ok l → Signed (l.code ++ [push 0]) := by
    intro l hl
    exact (stmt_signed hn s hs hle hl).1.append (signed_push 0)
  cases s with
  | expr info e =>
    rw [status, bind_eq_ok] at h
    obtain ⟨type, _, h⟩ := h
    split at h
    · rw [Stmt.weight] at hle
      exact expr_signed hn e hs (by omega) h
    · obtain ⟨l, hl, h⟩ := bind_eq_ok.mp h
      cases h
      exact hzero l hl
  | var | block | cond | loop | ret =>
    rw [status] at h
    · obtain ⟨l, hl, h⟩ := bind_eq_ok.mp h
      cases h
      exact hzero l hl
    · simp

theorem statements_signed (hn : n < 2 ^ 63) : ∀ (ss : List Stmt) {slots : Slots} {lastId : Nat}
    {code : Code}, Stmt.NarrowAll n ss → slots.length + Stmt.weightAll ss ≤ n →
      statements slots lastId ss = .ok code → Signed code
  | [], slots, lastId, code, _, _, h => by
    cases h
    exact signed_push 0
  | [s], slots, lastId, code, ⟨hs, _⟩, hle, h => by
    simp only [Stmt.weightAll, Nat.add_zero] at hle
    exact status_signed hn hs hle h
  | s :: s' :: ss, slots, lastId, code, ⟨hs, hss⟩, hle, h => by
    rw [statements, bind_eq_ok] at h
    · obtain ⟨first, hfirst, h⟩ := h
      obtain ⟨rest, hrest, h⟩ := bind_eq_ok.mp h
      cases h
      rw [Stmt.weightAll] at hle
      obtain ⟨hcode, hslots⟩ := stmt_signed hn s hs (by omega) hfirst
      exact hcode.append (statements_signed hn (s' :: ss) hss (by omega) hrest)
    · simp

theorem funcs_signed (hn : n < 2 ^ 63) : ∀ (fs : List Func) {seen : List String} {lastId : Nat}
    {r : Code × Nat}, (∀ f ∈ fs, f.body.Narrow n ∧ f.weight ≤ n) →
      funcs seen lastId fs = .ok r → Signed r.1
  | [], seen, lastId, r, _, h => by
    cases h
    exact .nil
  | f :: fs, seen, lastId, r, hfs, h => by
    rw [funcs] at h
    split at h
    · cases h
    · obtain ⟨⟨first, mid⟩, hfirst, h⟩ := bind_eq_ok.mp h
      obtain ⟨⟨rest, last⟩, hrest, h⟩ := bind_eq_ok.mp h
      cases h
      obtain ⟨⟨hnarrow, hweight⟩, hothers⟩ := List.forall_mem_cons.mp hfs
      obtain ⟨body, hbody, hcode⟩ := bind_eq_ok.mp hfirst
      cases hcode
      -- the parameters of a function take the first slots of its frame
      have hparams := TypeExpr.length_le_weightItems f.params
      rw [Func.weight] at hweight
      have hslots : (f.params.map Item.name).reverse.length + f.body.weight ≤ n := by
        rw [List.length_reverse, List.length_map]
        omega
      have hsigned := (stmt_signed hn f.body hnarrow hslots hbody).1
      exact Signed.append (.label _ (hsigned.append (.cons rfl (.inst rfl))))
        (funcs_signed hn fs hothers hrest)

end Statements

end Lowering

namespace Module

open Lowering

variable {name source : String} {m : Module}

theorem weight_le_of_mem_funcs {f : Func} (hf : f ∈ m.funcs) : f.weight ≤ m.weight := by
  obtain ⟨d, hd, hfunc⟩ := List.mem_filterMap.mp hf
  have hle : d.weight ≤ Def.weightAll m.defs := List.le_sum_of_mem (List.mem_map_of_mem hd)
  cases d with
  | object info name items => cases hfunc
  | func info g =>
    cases hfunc
    exact Nat.le_trans hle (Nat.le_add_right _ _)

theorem lower_signed {n : Nat} {functions main : Code} {lastId : Nat} (hn : n < 2 ^ 63)
    (hweight : m.weight ≤ n) (hnarrow : m.Narrow n)
    (hfuncs : Lowering.funcs [] 0 m.funcs = .ok (functions, lastId))
    (hmain : statements [] lastId m.stmts = .ok main) : Signed (wholeCode functions main) := by
  have hfunctions : Signed functions := funcs_signed hn m.funcs
    (fun f hf => ⟨hnarrow.funcs f hf, Nat.le_trans (weight_le_of_mem_funcs hf) hweight⟩) hfuncs
  have hstmts : Signed main := by
    apply statements_signed hn m.stmts hnarrow.stmts _ hmain
    rw [weight] at hweight
    rw [List.length_nil]
    omega
  exact ((((Signed.label _ (.inst rfl)).append hfunctions).append (.label _ .nil)).append
    hstmts).append (.inst rfl)

/-- The code of a checked source text is a valid program. Its lowering succeeds, its labels differ
from each other, and its instructions pass the signature check. It is assembled to a program that
starts at the label of its start, and in which each label stands in front of an instruction. -/
theorem lower_valid (hchecked : Module.checked name source = .ok m)
    (hsize : source.length < 2 ^ 63) :
    ∃ code b listing, m.lower = .ok code ∧ code.labelNames.Nodup ∧
      (∀ i, .inst i ∈ code → Inst.make i.op i.args = .ok i) ∧
      code.assemble = .ok b ∧ EdeLang.build name source = .ok b ∧
      b.labels.get startLabel = .ok 0 ∧
      Instruction.decodeAll b.bytes = .ok listing ∧
      ∀ p ∈ b.labels.entries, p.2 < b.bytes.size ∧ ∃ i, (p.2, i) ∈ listing := by
  have hm := typed_of_checked hchecked
  obtain ⟨functions, lastId, main, hfuncs, hmain, hlower, _, _⟩ := lower_ok hm
  obtain ⟨_, _, _, b, _, _, _, hbuild, _, _, _⟩ := assemble_ok hm
  have hassemble : (wholeCode functions main).assemble = .ok b := by
    rw [build, hlower] at hbuild
    cases hb : (wholeCode functions main).assemble with
    | error e => simp [hb, Except.mapError] at hbuild
    | ok b' => simpa [hb, Except.mapError] using hbuild
  obtain ⟨hnodup, hlabels, _⟩ := Code.assemble_eq_ok_iff.mp hassemble
  obtain ⟨hweight, hnarrow⟩ := narrow_of_checked hchecked
  have hsigned := lower_signed hsize hweight hnarrow hfuncs hmain
  obtain ⟨listing, hdecoded, hlisted⟩ := Code.labels_listed rfl hassemble
  refine ⟨wholeCode functions main, b, listing, hlower, hnodup, ?_, hassemble, ?_, ?_, hdecoded,
    hlisted⟩
  · intro i hi
    exact Inst.make_eq_ok_iff.mpr (hsigned i hi)
  · rw [EdeLang.build, hchecked]
    exact hbuild
  · rw [hlabels]
    rfl

theorem lower_valid_pickText : ∃ m code b listing, Module.checked "pick" pickText = .ok m ∧
    pickText.length < 2 ^ 63 ∧ m.lower = .ok code ∧ code.labelNames.Nodup ∧
      (∀ i, .inst i ∈ code → Inst.make i.op i.args = .ok i) ∧
      code.assemble = .ok b ∧ EdeLang.build "pick" pickText = .ok b ∧
      b.labels.get startLabel = .ok 0 ∧
      Instruction.decodeAll b.bytes = .ok listing ∧
      ∀ p ∈ b.labels.entries, p.2 < b.bytes.size ∧ ∃ i, (p.2, i) ∈ listing := by
  obtain ⟨m, hm⟩ := exists_checked_pickText
  have hsize : pickText.length < 2 ^ 63 := by decide
  obtain ⟨code, b, listing, hvalid⟩ := lower_valid hm hsize
  exact ⟨m, code, b, listing, hm, hsize, hvalid⟩

end Module
end EdeLang
