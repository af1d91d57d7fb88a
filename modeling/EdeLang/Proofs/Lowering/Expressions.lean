import EdeLang.Proofs.Evaluation.Soundness
import EdeLang.Proofs.Lowering.Assembled
import EdeLang.Proofs.Lowering.Represent

/-!
# Expressions on the machine

The code of an expression pushes a word that stands for the value of the expression, and leaves
words that stand for the variables after its evaluation.
-/

namespace EdeLang

namespace Lowering

theorem bind_eq_ok {ε α β : Type} {x : Except ε α} {f : α → Except ε β} {b : β} :
    (x >>= f) = .ok b ↔ ∃ a, x = .ok a ∧ f a = .ok b := by
  cases x <;> simp [bind, Except.bind]

theorem pure_eq_ok {ε α : Type} {a b : α} : (pure a : Except ε α) = .ok b ↔ a = b := by
  simp [pure, Except.pure]

theorem map_eq_ok {ε α β : Type} {x : Except ε α} {f : α → β} {b : β} (h : x.map f = .ok b) :
    ∃ a, x = .ok a ∧ b = f a := by
  cases x with
  | error e => simp [Except.map] at h
  | ok a => exact ⟨a, rfl, by simpa [Except.map] using h.symm⟩

theorem slotOf_eq_ok {slots : Slots} {name : String} {k : Nat} :
    slotOf slots name = .ok k ↔ slots.slot? name = some k := by
  unfold slotOf
  cases slots.slot? name <;> simp

theorem extent_pos {code : Code} (i : Inst) (h : .inst i ∈ code) : 0 < code.extent := by
  have hi : 0 < i.size := by
    rw [Inst.size]
    cases i.op <;> decide
  obtain ⟨front, back, rfl⟩ := List.append_of_mem h
  simp only [Code.extent_append, Code.extent]
  omega

theorem extent_pushDefault_pos (t : Ty) : 0 < (pushDefault t).extent := by
  cases t with
  | prim p =>
    cases p with
    | string => exact extent_pos (.pack 0) (by simp [pushDefault, pack])
    | _ => exact extent_pos (.pushi 0) (by simp [pushDefault, push])
  | array elem => exact extent_pos (.pack 0) (by simp [pushDefault, pack])
  | func params ret => exact extent_pos (.pushi 0) (by simp [pushDefault, push])
  | tuple elems => exact extent_pos (.pack elems.length) (by simp [pushDefault, pack])
  | object name fields => exact extent_pos (.pack fields.length) (by simp [pushDefault, pack])

private theorem extent_pushLiteral_pos (value : Literal) : 0 < (pushLiteral value).extent := by
  cases value with
  | string s => exact extent_pos (.pack s.toList.length) (by simp [pushLiteral, pack])
  | unit => exact extent_pos (.pushi 0) (by simp [pushLiteral, push])
  | int v => exact extent_pos (.pushi v) (by simp [pushLiteral, push])
  | char c => exact extent_pos (.pushi (Int64.ofNat c.toNat)) (by simp [pushLiteral, push])
  | bool b => exact extent_pos (.pushi (if b then 1 else 0)) (by simp [pushLiteral, push])

theorem extent_expr_pos {slots : Slots} {e : Expr} {code : Code} (h : expr slots e = .ok code) :
    0 < code.extent := by
  cases e with
  | literal info value =>
    obtain rfl : pushLiteral value = code := by simpa [expr] using h
    exact extent_pushLiteral_pos value
  | ident info name =>
    simp only [expr, bind_eq_ok, pure_eq_ok] at h
    obtain ⟨k, _, rfl⟩ := h
    exact extent_pos (.sload k) (by simp)
  | binop info o left right =>
    simp only [expr, bind_eq_ok, pure_eq_ok] at h
    obtain ⟨r, _, l, _, t, _, rfl⟩ := h
    exact extent_pos (.plain .swap) (by simp [op])
  | assign info name value =>
    simp only [expr, bind_eq_ok, pure_eq_ok] at h
    obtain ⟨v, _, k, _, rfl⟩ := h
    exact extent_pos (.sstore k) (by simp)
  | array info elems =>
    simp only [expr, bind_eq_ok, pure_eq_ok] at h
    obtain ⟨vs, _, rfl⟩ := h
    exact extent_pos (.pack elems.length) (by simp [pack])
  | tuple info elems =>
    simp only [expr, bind_eq_ok, pure_eq_ok] at h
    obtain ⟨vs, _, rfl⟩ := h
    exact extent_pos (.pack elems.length) (by simp [pack])
  | object info name inits =>
    simp only [expr, bind_eq_ok] at h
    obtain ⟨type, _, h⟩ := h
    cases type with
    | object _ declared =>
      simp only [bind_eq_ok, pure_eq_ok] at h
      obtain ⟨vs, _, rfl⟩ := h
      exact extent_pos (.pack declared.length) (by simp [pack])
    | _ => simp at h
  | call info name args =>
    simp only [expr, bind_eq_ok, pure_eq_ok] at h
    obtain ⟨vs, _, rfl⟩ := h
    exact extent_pos (.calll (funcLabel name) args.length) (by simp)
  | default info type =>
    simp only [expr, bind_eq_ok, pure_eq_ok] at h
    obtain ⟨t, _, rfl⟩ := h
    exact extent_pushDefault_pos t

theorem length_le_extent_exprs {slots : Slots} : ∀ {es : List Expr} {code : Code},
    exprs slots es = .ok code → es.length ≤ code.extent
  | [], _, _ => Nat.zero_le _
  | e :: es, code, h => by
    simp only [exprs, bind_eq_ok, pure_eq_ok] at h
    obtain ⟨c, hc, d, hd, rfl⟩ := h
    have hpos := extent_expr_pos hc
    have hrest := length_le_extent_exprs hd
    simp only [Code.extent_append, List.length_cons]
    omega

private theorem length_le_extent_pushDefaults (ts : List Ty) :
    ts.length ≤ (pushDefaults ts).extent := by
  induction ts with
  | nil => exact Nat.zero_le _
  | cons t ts ih =>
    have hpos := extent_pushDefault_pos t
    simp only [pushDefaults, Code.extent_append, List.length_cons]
    omega

private theorem length_le_extent_pushFieldDefaults (fields : List (String × Ty)) :
    fields.length ≤ (pushFieldDefaults fields).extent := by
  induction fields with
  | nil => exact Nat.zero_le _
  | cons field fields ih =>
    have hpos := extent_pushDefault_pos field.2
    simp only [pushFieldDefaults, Code.extent_append, List.length_cons]
    omega

private theorem length_le_extent_pushFields {slots : Slots} {inits : List (String × Expr)} :
    ∀ {fields : List (String × Ty)} {code : Code},
      pushFields (initCodes slots inits) fields = .ok code → fields.length ≤ code.extent
  | [], _, _ => Nat.zero_le _
  | (field, t) :: fields, code, h => by
    simp only [pushFields, bind_eq_ok, pure_eq_ok, lookup_initCodes] at h
    obtain ⟨c, hc, d, hd, rfl⟩ := h
    have hpos : 0 < c.extent := by
      cases hlookup : inits.lookup field with
      | none =>
        obtain rfl : pushDefault t = c := by simpa [hlookup] using hc
        exact extent_pushDefault_pos t
      | some e => exact extent_expr_pos (show expr slots e = .ok c by simpa [hlookup] using hc)
    have hrest := length_le_extent_pushFields hd
    simp only [Code.extent_append, List.length_cons]
    omega

private theorem length_le_extent_map (f : Char → Int64) : ∀ cs : List Char,
    cs.length ≤ Code.extent (cs.map fun c => push (f c))
  | [] => Nat.zero_le _
  | c :: cs => by
    have hpos : 0 < Code.extent [push (f c)] := extent_pos (.pushi (f c)) (by simp [push])
    have hrest := length_le_extent_map f cs
    simp only [List.map_cons, List.length_cons, push, Code.extent] at hpos hrest ⊢
    omega

end Lowering

open Lowering

section Constants

variable {b : Binary} {env : Env}

private theorem length_ofTypes (ts : List Ty) : (Value.ofTypes ts).length = ts.length := by
  induction ts with
  | nil => rfl
  | cons t ts ih => simp [Value.ofTypes, ih]

private theorem length_ofFields (fields : List (String × Ty)) :
    (Value.ofFields fields).length = fields.length := by
  induction fields with
  | nil => rfl
  | cons field fields ih => simp [Value.ofFields, ih]

mutual

/-- The code of a default pushes it, in one step for each of its parts. -/
theorem moves_default (hb : b.Runnable) : ∀ (t : Ty) {ip : Nat}, b.Placed ip (pushDefault t) →
    Moves b (Value.ofType t).size (Scene.Pushed ip [] env)
      (Scene.Pushed (ip + (pushDefault t).extent) [.ofType t] env)
  | .prim .unit, _, hp => moves_push hb (fun _ => rfl) hp
  | .prim .int, _, hp => moves_push hb (fun _ => rfl) hp
  | .prim .char, _, hp => moves_push hb (fun _ => rfl) hp
  | .prim .bool, _, hp => moves_push hb (fun _ => rfl) hp
  | .func _ _, _, hp => moves_push hb (fun _ => rfl) hp
  | .prim .string, _, hp => by
    refine moves_pack hb ?_ hp rfl (by decide)
    rintro heap w words h hw
    cases h
    exact hw
  | .array _, _, hp => by
    refine moves_pack hb ?_ hp rfl (by decide)
    intro heap w words h hw
    exact ⟨words, hw, Value.repAll_of_forall₂ h⟩
  | .tuple elems, ip, hp => by
    obtain ⟨helems, hpack⟩ := Binary.placed_append hp
    have hlt := hb.end_lt helems
    have hsmall := hb.small
    have hlength := length_le_extent_pushDefaults elems
    refine (moves_defaults hb elems helems).trans ?_
    rw [pushDefault, Code.extent_append, ← Nat.add_assoc]
    refine moves_pack hb ?_ hpack (length_ofTypes elems) (by omega)
    intro heap w words h hw
    exact ⟨words, hw, Value.repAll_of_forall₂ h⟩
  | .object name fields, ip, hp => by
    obtain ⟨hfields, hpack⟩ := Binary.placed_append hp
    have hlt := hb.end_lt hfields
    have hsmall := hb.small
    have hlength := length_le_extent_pushFieldDefaults fields
    refine (moves_fieldDefaults hb fields hfields).trans ?_
    rw [pushDefault, Code.extent_append, ← Nat.add_assoc]
    refine moves_pack hb ?_ hpack (by rw [List.length_map, length_ofFields]) (by omega)
    intro heap w words h hw
    exact ⟨words, hw, Value.repFields_of_forall₂ h⟩

theorem moves_defaults (hb : b.Runnable) : ∀ (ts : List Ty) {ip : Nat},
    b.Placed ip (pushDefaults ts) →
      Moves b (Value.sizeAll (Value.ofTypes ts)) (Scene.Pushed ip [] env)
        (Scene.Pushed (ip + (pushDefaults ts).extent) (Value.ofTypes ts) env)
  | [], ip, _ => fun _ _ h => .here h
  | t :: ts, ip, hp => by
    obtain ⟨hfirst, hrest⟩ := Binary.placed_append hp
    refine (moves_default hb t hfirst).trans ?_
    rw [pushDefaults, Code.extent_append, ← Nat.add_assoc]
    exact (moves_defaults hb ts hrest).frame [.ofType t]

theorem moves_fieldDefaults (hb : b.Runnable) : ∀ (fields : List (String × Ty)) {ip : Nat},
    b.Placed ip (pushFieldDefaults fields) →
      Moves b (Value.sizeFields (Value.ofFields fields)) (Scene.Pushed ip [] env)
        (Scene.Pushed (ip + (pushFieldDefaults fields).extent)
          ((Value.ofFields fields).map Prod.snd) env)
  | [], ip, _ => fun _ _ h => .here h
  | (_, t) :: fields, ip, hp => by
    obtain ⟨hfirst, hrest⟩ := Binary.placed_append hp
    refine (moves_default hb t hfirst).trans ?_
    rw [pushFieldDefaults, Code.extent_append, ← Nat.add_assoc]
    exact (moves_fieldDefaults hb fields hrest).frame [.ofType t]

end

private theorem moves_chars (hb : b.Runnable) : ∀ (cs : List Char) {ip : Nat},
    b.Placed ip (cs.map fun c => push (Int64.ofNat c.toNat)) →
      Moves b cs.length (Scene.Pushed ip [] env)
        (Scene.Pushed (ip + Code.extent (cs.map fun c => push (Int64.ofNat c.toNat)))
          (cs.map .char) env)
  | [], ip, _ => fun _ _ h => .here h
  | c :: cs, ip, hp => by
    obtain ⟨hfirst, hrest⟩ := Binary.placed_append (c := [push (Int64.ofNat c.toNat)]) hp
    have hpush : Moves b 1 (Scene.Pushed ip [] env) (Scene.Pushed _ [.char c] env) :=
      moves_push hb (fun _ => rfl) hfirst
    have hextent : Code.extent ((c :: cs).map fun c => push (Int64.ofNat c.toNat)) = _ :=
      Code.extent_append [push (Int64.ofNat c.toNat)]
        (cs.map fun c : Char => push (Int64.ofNat c.toNat))
    rw [hextent, ← Nat.add_assoc, List.length_cons, Nat.add_comm cs.length]
    exact hpush.trans ((moves_chars hb cs hrest).frame [.char c])

private theorem words_of_chars {heap : Heap} : ∀ {cs : List Char} {words : List Word},
    List.Forall₂ (Value.Rep heap) (cs.map .char) words → words = cs.map Value.charWord
  | [], _, .nil => rfl
  | _ :: _, _, .cons hw h => congrArg₂ List.cons hw (words_of_chars h)

theorem moves_literal (hb : b.Runnable) (value : Literal) {ip : Nat}
    (hp : b.Placed ip (pushLiteral value)) :
    Moves b (Value.ofLiteral value).size (Scene.Pushed ip [] env)
      (Scene.Pushed (ip + (pushLiteral value).extent) [.ofLiteral value] env) := by
  cases value with
  | unit => exact moves_push hb (fun _ => rfl) hp
  | int v => exact moves_push hb (fun _ => rfl) hp
  | char c => exact moves_push hb (fun _ => rfl) hp
  | bool t => exact moves_push hb (fun _ => rfl) hp
  | string s =>
    obtain ⟨hchars, hpack⟩ := Binary.placed_append hp
    have hlt := hb.end_lt hchars
    have hsmall := hb.small
    have hlength := length_le_extent_map (fun c => Int64.ofNat c.toNat) s.toList
    refine (moves_chars hb s.toList hchars).trans ?_
    rw [pushLiteral, Code.extent_append, ← Nat.add_assoc]
    refine moves_pack hb ?_ hpack (List.length_map _) (by omega)
    intro heap w words h hw
    obtain rfl := words_of_chars h
    exact hw

end Constants

namespace Env

variable {env env' : Env} {name : String} {v : Value} {k : Nat}

private theorem map_fst_eq {bs : Bindings} {vars : List (String × Ty)}
    (h : List.Forall₂ (fun b v => b.1 = v.1 ∧ v.2.Has b.2) bs vars) :
    bs.map Prod.fst = vars.map Prod.fst := by
  induction h with
  | nil => rfl
  | cons hb _ ih => rw [List.map_cons, List.map_cons, hb.1, ih]

theorem Typed.names {ctx : Context} (h : env.Typed ctx) :
    env.flatten.map Prod.fst = ctx.names := by
  unfold Context.names
  induction h with
  | nil => rfl
  | cons hscope _ ih =>
    rw [List.flatten_cons, List.flatten_cons, List.map_append, List.map_append,
      map_fst_eq hscope, ih]

theorem Typed.length_values {ctx : Context} (h : env.Typed ctx) :
    env.values.length = ctx.names.length := by
  rw [← h.names, values, List.length_map, List.length_map, List.length_reverse]

/-- The value of a variable stands in its slot. -/
theorem values_of_get? (h : env.get? name = some v)
    (hk : Slots.slot? (env.flatten.map Prod.fst) name = some k) : env.values[k]? = some v := by
  obtain ⟨j, hj, hget⟩ := slot?_of_lookup ((lookup_flatten env name).trans h)
  obtain rfl := Option.some.inj (hj.symm.trans hk)
  rw [values, List.getElem?_map, hget]
  rfl

private theorem set?_append (xs ys : Bindings) :
    Bindings.set? name v (xs ++ ys) =
      match Bindings.set? name v xs with
      | some xs' => some (xs' ++ ys)
      | none => (Bindings.set? name v ys).map (xs ++ ·) := by
  induction xs with
  | nil => simp [Bindings.set?]
  | cons x xs ih =>
    rw [List.cons_append, Bindings.set?, Bindings.set?]
    split
    · rfl
    · rw [ih]
      cases Bindings.set? name v xs with
      | some xs' => rfl
      | none => simp [Function.comp_def]

private theorem set?_flatten (h : env.set? name v = some env') :
    Bindings.set? name v env.flatten = some env'.flatten := by
  induction env generalizing env' with
  | nil => simp [set?] at h
  | cons scope env ih =>
    rw [List.flatten_cons, set?_append]
    cases hscope : Bindings.set? name v scope with
    | some scope' =>
      obtain rfl : scope' :: env = env' := by simpa [set?, hscope] using h
      rfl
    | none =>
      obtain ⟨rest, hrest, rfl⟩ : ∃ rest, set? name v env = some rest ∧ scope :: rest = env' := by
        simpa [set?, hscope] using h
      rw [ih hrest]
      rfl

private theorem values_of_bindings_set? {bs bs' : Bindings} (h : bs.set? name v = some bs')
    (hk : Slots.slot? (bs.map Prod.fst) name = some k) : k < bs.length ∧
      bs'.reverse.map Prod.snd = (bs.reverse.map Prod.snd).set k v := by
  induction bs generalizing bs' with
  | nil => simp [Bindings.set?] at h
  | cons bound bs ih =>
    obtain ⟨n, u⟩ := bound
    rw [List.map_cons, Slots.slot?] at hk
    by_cases hn : n = name
    · subst hn
      obtain rfl : (n, v) :: bs = bs' := by simpa [Bindings.set?] using h
      obtain rfl : bs.length = k := by simpa using hk
      simp
    · obtain ⟨rest, hrest, rfl⟩ : ∃ rest, Bindings.set? name v bs = some rest ∧
          (n, u) :: rest = bs' := by
        simpa [Bindings.set?, hn] using h
      obtain ⟨hlt, hvalues⟩ := ih hrest (by simpa [hn] using hk)
      refine ⟨by simp only [List.length_cons]; omega, ?_⟩
      rw [List.reverse_cons, List.reverse_cons, List.map_append, List.map_append, hvalues,
        List.set_append_left _ _ (by simpa using hlt)]

theorem values_of_set? (h : env.set? name v = some env')
    (hk : Slots.slot? (env.flatten.map Prod.fst) name = some k) :
    k < env.values.length ∧ env'.values = env.values.set k v := by
  obtain ⟨hlt, hvalues⟩ := values_of_bindings_set? (set?_flatten h) hk
  refine ⟨?_, hvalues⟩
  rwa [values, List.length_map, List.length_reverse]

end Env

/-- Every call with arguments of the right types is simulated by its instruction. -/
def CallsSim (b : Binary) (least : Nat) (sigs : Signatures) (call : Calls) (count : CallWork) :
    Prop :=
  ∀ name params ret args ip env, sigs name = some (params, ret) →
    Ty.HasAll (params.map Prod.snd) args → args.length < 2 ^ 63 →
      b.Placed ip [.inst (.calll (funcLabel name) args.length)] →
        Sim b least (count name args) (Scene.Pushed ip args env) (call name args) fun s v =>
          s.Pushed (ip + Code.extent [.inst (.calll (funcLabel name) args.length)]) [v] env

private theorem BinOp.sim {b : Binary} (hb : b.Runnable) {least : Nat} {o : BinOp} {l r t : Ty}
    {v w : Value} {pos : Pos} {ip : Nat} {env : Env} (hop : o.resultType l r = some t)
    (hv : l.Has v) (hw : r.Has w) (hp : b.Placed ip [op (operator o l)]) :
    Sim b least 1 (Scene.Pushed ip [v, w] env) (o.eval v w pos) fun s u =>
      s.Pushed (ip + Code.extent [op (operator o l)]) [u] env := by
  unfold BinOp.resultType at hop
  split at hop
  · rename_i hints
    obtain ⟨hl, hr⟩ := Bool.and_eq_true_iff.mp hints
    obtain rfl : l = .int := Ty.eq_prim_of_same hl
    obtain rfl : r = .int := Ty.eq_prim_of_same hr
    obtain ⟨m, rfl⟩ := hv
    obtain ⟨n, rfl⟩ := hw
    cases o with
    | add => exact .of_moves (moves_intOp hb hp (Inst.resolve_iadd _) rfl)
    | sub => exact .of_moves (moves_intOp hb hp (Inst.resolve_isub _) rfl)
    | mul => exact .of_moves (moves_intOp hb hp (Inst.resolve_imul _) rfl)
    | div =>
      show Sim b least 1 _
        (if n = 0 then .error (.divisionByZero pos) else .ok (Value.int (m / n))) _
      by_cases hn : n = 0
      · subst hn
        exact ⟨0, Nat.zero_le 1, by simp, fun s m hs => .here (divides_of_pushed hb hp hs)⟩
      · rw [if_neg hn]
        exact .of_moves (moves_idiv hb hp hn)
  · split at hop
    · rename_i hstrings
      simp only [Bool.and_eq_true] at hstrings
      obtain ⟨⟨hadd, hl⟩, hr⟩ := hstrings
      obtain rfl : o = .add := by simpa using hadd
      obtain rfl : l = .string := Ty.eq_prim_of_same hl
      obtain rfl : r = .string := Ty.eq_prim_of_same hr
      obtain ⟨x, rfl⟩ := hv
      obtain ⟨y, rfl⟩ := hw
      exact .of_moves (moves_scat hb hp)
    · simp at hop

section Eval

variable {b : Binary} {least : Nat} {sigs : Signatures} {call : Calls} {count : CallWork}
  {ctx : Context}

/-- The code that pushes an expression, if it is placed, simulates its evaluation. -/
def Expr.Simulated (b : Binary) (least : Nat) (call : Calls) (count : CallWork) (ctx : Context)
    (e : Expr) : Prop :=
  ∀ {env : Env} {code : Code} {ip : Nat}, env.Typed ctx → expr ctx.names e = .ok code →
    b.Placed ip code → ctx.names.length < 2 ^ 63 + ip →
      Sim b least (e.work call count env) (Scene.Pushed ip [] env) (e.eval call env) fun s a =>
        s.Pushed (ip + code.extent) [a.1] a.2

private theorem lookup_evalInits (inits : List (String × Expr)) (field : String) :
    (Expr.evalInits call inits).lookup field = (inits.lookup field).map fun e => e.eval call := by
  induction inits with
  | nil => rfl
  | cons init inits ih =>
    obtain ⟨n, e⟩ := init
    rw [Expr.evalInits, List.lookup_cons, List.lookup_cons]
    cases field == n with
    | true => rfl
    | false => exact ih

private theorem lookup_workInits (inits : List (String × Expr)) (field : String) :
    (Expr.workInits call count inits).lookup field =
      (inits.lookup field).map fun e => e.work call count := by
  induction inits with
  | nil => rfl
  | cons init inits ih =>
    obtain ⟨n, e⟩ := init
    rw [Expr.workInits, List.lookup_cons, List.lookup_cons]
    cases field == n with
    | true => rfl
    | false => exact ih

private theorem fieldValues_sim (hb : b.Runnable) {inits : List (String × Expr)}
    {all : List (String × Ty)} (hsound : ActionsSound ctx all (Expr.evalInits call inits))
    (hnodup : (all.map Prod.fst).Nodup)
    (hinits : ∀ field e, inits.lookup field = some e → e.Simulated b least call count ctx) :
    ∀ (fields : List (String × Ty)) {env : Env} {code : Code} {ip : Nat}, fields ⊆ all →
      env.Typed ctx → pushFields (initCodes ctx.names inits) fields = .ok code →
        b.Placed ip code → ctx.names.length < 2 ^ 63 + ip →
          Sim b least
            (fieldWork (Expr.evalInits call inits) (Expr.workInits call count inits) fields env)
            (Scene.Pushed ip [] env) (fieldValues (Expr.evalInits call inits) fields env)
            fun s a => s.Pushed (ip + code.extent) (a.1.map Prod.snd) a.2
  | [], env, code, ip, _, _, hcode, hp, _ => by
    obtain rfl : [] = code := by simpa [pushFields] using hcode
    exact .ok fun _ _ hs => hs
  | (field, t) :: fields, env, code, ip, hsub, henv, hcode, hp, hslots => by
    simp only [pushFields, bind_eq_ok, pure_eq_ok] at hcode
    obtain ⟨c, hc, d, hd, rfl⟩ := hcode
    obtain ⟨hpc, hpd⟩ := Binary.placed_append hp
    have hfirst : Sim b least
        (((Expr.workInits call count inits).lookup field).getD (fun _ => (Value.ofType t).size) env)
        (Scene.Pushed ip [] env)
        (((Expr.evalInits call inits).lookup field).getD (fun env => .ok (.ofType t, env)) env)
        fun s a => s.Pushed (ip + c.extent) [a.1] a.2 := by
      rw [lookup_initCodes] at hc
      rw [lookup_evalInits, lookup_workInits]
      cases hlookup : inits.lookup field with
      | some e => exact hinits field e hlookup henv (by simpa [hlookup] using hc) hpc hslots
      | none =>
        obtain rfl : pushDefault t = c := by simpa [hlookup] using hc
        exact .of_moves (moves_default hb t hpc)
    rw [fieldWork]
    refine hfirst.bind ?_ fun e he => by rw [fieldValues, he]
    rintro ⟨v, env₁⟩ hr
    obtain ⟨_, henv₁⟩ := (hsound.field hnodup (hsub List.mem_cons_self) henv).of_ok hr
    rw [fieldValues, hr]
    have hrest := fieldValues_sim hb hsound hnodup hinits fields
      (List.subset_of_cons_subset hsub) henv₁ hd hpd (by omega)
    refine (hrest.frame [v]).map fun s a m h => ?_
    rwa [Code.extent_append, ← Nat.add_assoc]

private theorem length_evalAll : ∀ {es : List Expr} {env : Env} {a : List Value × Env},
    Expr.evalAll call es env = .ok a → a.1.length = es.length
  | [], _, _, h => by
    obtain rfl := Except.ok.inj h
    rfl
  | e :: es, env, a, h => by
    rw [Expr.evalAll] at h
    split at h
    · simp at h
    · rename_i v env₁ _
      obtain ⟨a', ha', rfl⟩ := map_eq_ok h
      simp [length_evalAll ha']

private theorem length_fieldValues {actions : List (String × Action Value)} :
    ∀ {fields : List (String × Ty)} {env : Env} {a : List (String × Value) × Env},
      fieldValues actions fields env = .ok a → a.1.length = fields.length
  | [], _, _, h => by
    obtain rfl := Except.ok.inj h
    rfl
  | (field, t) :: fields, env, a, h => by
    rw [fieldValues] at h
    split at h
    · simp at h
    · rename_i v env₁ _
      obtain ⟨a', ha', rfl⟩ := map_eq_ok h
      simp [length_fieldValues ha']

private theorem sim_pack {α : Type} (hb : b.Runnable) {r : Except Halt (α × Env)} {env : Env}
    {c : Code} {ip size most : Nat} (vs : α → List Value) (u : α → Value)
    (h : Sim b least most (Scene.Pushed ip [] env) r fun s a =>
      s.Pushed (ip + c.extent) (vs a.1) a.2)
    (hp : b.Placed ip (c ++ [pack size])) (hlength : ∀ a, r = .ok a → (vs a.1).length = size)
    (hsize : size ≤ c.extent)
    (hu : ∀ a heap w words, List.Forall₂ (Value.Rep heap) (vs a) words →
      Machine.Holds heap w words → (u a).Rep heap w) :
    Sim b least (most + 1) (Scene.Pushed ip [] env) r fun s a =>
      s.Pushed (ip + (c ++ [pack size]).extent) [u a.1] a.2 := by
  obtain ⟨hpc, hpack⟩ := Binary.placed_append hp
  have hend := hb.end_lt hpc
  have hsmall := hb.small
  rw [Code.extent_append, ← Nat.add_assoc]
  exact h.then_moves fun a ha => moves_pack hb (hu a.1) hpack (hlength a ha) (by omega)

private theorem sim_packAll (hb : b.Runnable) {es : List Expr} {env : Env} {c : Code}
    {ip most : Nat} (u : List Value → Value) (hc : exprs ctx.names es = .ok c)
    (h : Sim b least most (Scene.Pushed ip [] env) (Expr.evalAll call es env) fun s a =>
      s.Pushed (ip + c.extent) a.1 a.2)
    (hp : b.Placed ip (c ++ [pack es.length]))
    (hu : ∀ vs heap w words, Machine.Holds heap w words → Value.RepAll heap vs words →
      (u vs).Rep heap w) :
    Sim b least (most + 1) (Scene.Pushed ip [] env) (Expr.evalAll call es env) fun s a =>
      s.Pushed (ip + (c ++ [pack es.length]).extent) [u a.1] a.2 := by
  refine sim_pack hb (fun vs => vs) u h hp ?_ (length_le_extent_exprs hc) ?_
  · intro a ha
    exact length_evalAll ha
  · intro vs heap w words hwords hw
    exact hu vs heap w words hw (Value.repAll_of_forall₂ hwords)

mutual

/-- The code of an expression simulates its evaluation. -/
theorem Expr.sim (hb : b.Runnable) (hsound : CallsSound sigs call)
    (hcall : CallsSim b least sigs call count) : ∀ (e : Expr) {t : Ty}, e.Typed sigs ctx t →
      e.Simulated b least call count ctx
  | .literal info value, t, _, env, code, ip, henv, hcode, hp, hslots => by
    obtain rfl : pushLiteral value = code := by simpa [expr] using hcode
    exact .of_moves (moves_literal hb value hp)
  | .ident info name, t, h, env, code, ip, henv, hcode, hp, hslots => by
    simp only [expr, bind_eq_ok, pure_eq_ok, slotOf_eq_ok] at hcode
    obtain ⟨k, hk, rfl⟩ := hcode
    obtain ⟨v, hget, _⟩ := henv.get? h.2
    rw [Expr.eval, hget, Expr.work]
    rw [← henv.names] at hk
    have hvalue := Env.values_of_get? hget hk
    have hlt := (List.getElem?_eq_some_iff.mp hvalue).1
    rw [henv.length_values] at hlt
    have hend := hb.end_lt hp
    have hsmall := hb.small
    exact .of_moves (moves_load hb hp (by omega) hvalue)
  | .binop info o left right, t, h, env, code, ip, henv, hcode, hp, hslots => by
    obtain ⟨_, l, r, hleft, hright, hop⟩ := h
    simp only [expr, bind_eq_ok, pure_eq_ok] at hcode
    obtain ⟨cr, hcr, cl, hcl, t', ht', rfl⟩ := hcode
    obtain rfl : l = t' := by simpa [typeOf_eq hleft.type_eq] using ht'
    have hops : [op .swap, op (operator o l)] = [op .swap] ++ [op (operator o l)] := rfl
    rw [hops, ← List.append_assoc] at hp ⊢
    obtain ⟨hplrs, hpo⟩ := Binary.placed_append hp
    obtain ⟨hplr, hswap⟩ := Binary.placed_append hplrs
    obtain ⟨hpr, hpl⟩ := Binary.placed_append hplr
    simp only [Code.extent_append, ← Nat.add_assoc] at hpo hswap ⊢
    rw [Expr.work]
    -- the right operand comes first, and lies below while the left one is evaluated
    refine (Expr.sim hb hsound hcall right hright henv hcr hpr hslots).bind ?_
      fun e he => by rw [Expr.eval, he]
    rintro ⟨w, env₁⟩ hr
    obtain ⟨hw, henv₁⟩ := (right.eval_sound hsound hright henv).of_ok hr
    have hsim := Expr.sim hb hsound hcall left hleft henv₁ hcl hpl (by omega)
    refine (hsim.frame [w]).bind_const ?_ fun e he => by rw [Expr.eval, hr]; simp only [he]
    rintro ⟨v, env₂⟩ hl
    obtain ⟨hv, _⟩ := (left.eval_sound hsound hleft henv₁).of_ok hl
    rw [Expr.eval, hr]
    simp only [hl]
    exact ((BinOp.sim hb hop hv hw hpo).after (moves_swap hb hswap)).map fun s u m h => h
  | .assign info name value, t, h, env, code, ip, henv, hcode, hp, hslots => by
    obtain ⟨_, hfind, found, hvalue, hsame⟩ := h
    simp only [expr, bind_eq_ok, pure_eq_ok, slotOf_eq_ok] at hcode
    obtain ⟨c, hc, k, hk, rfl⟩ := hcode
    obtain ⟨hpc, hps⟩ := Binary.placed_append hp
    obtain ⟨hstore, hload⟩ := Binary.placed_append (c := [.inst (.sstore k)])
      (d := [.inst (.sload k)]) hps
    rw [Expr.work]
    refine (Expr.sim hb hsound hcall value hvalue henv hc hpc hslots).bind_const ?_
      fun e he => by rw [Expr.eval, he]
    rintro ⟨v, env₁⟩ hr
    obtain ⟨hv, henv₁⟩ := (value.eval_sound hsound hvalue henv).of_ok hr
    obtain ⟨env₂, hset, _⟩ := henv₁.set? hfind ((Ty.has_of_same hsame).mpr hv)
    rw [Expr.eval, hr]
    simp only [hset]
    -- the word is stored and loaded again, since an assignment has the assigned value
    rw [← henv₁.names] at hk
    obtain ⟨hlt, hvalues⟩ := Env.values_of_set? hset hk
    have hget : env₂.values[k]? = some v := by rw [hvalues, List.getElem?_set_self hlt]
    rw [henv₁.length_values] at hlt
    have hend := hb.end_lt hp
    have hsmall := hb.small
    rw [Code.extent_append, ← Nat.add_assoc]
    exact .of_moves ((moves_store hb hstore (by omega) (henv₁.length_values ▸ hlt) hvalues).trans
      (moves_load hb hload (by omega) hget))
  | .array info elems, t, h, env, code, ip, henv, hcode, hp, hslots => by
    obtain ⟨_, elem, _, helems⟩ := h
    obtain ⟨types, htypes, _⟩ := helems.exists_types
    simp only [expr, bind_eq_ok, pure_eq_ok] at hcode
    obtain ⟨c, hc, rfl⟩ := hcode
    have hall := Expr.simAll hb hsound hcall elems htypes henv hc (Binary.placed_append hp).1 hslots
    have hpacked := sim_packAll hb .array hc hall hp fun vs heap w words hw h => ⟨words, hw, h⟩
    rw [Expr.eval, Expr.work]
    exact hpacked.map fun s a m h => h
  | .tuple info elems, t, h, env, code, ip, henv, hcode, hp, hslots => by
    obtain ⟨_, types, _, htypes⟩ := h
    simp only [expr, bind_eq_ok, pure_eq_ok] at hcode
    obtain ⟨c, hc, rfl⟩ := hcode
    have hall := Expr.simAll hb hsound hcall elems htypes henv hc (Binary.placed_append hp).1 hslots
    have hpacked := sim_packAll hb .tuple hc hall hp fun vs heap w words hw h => ⟨words, hw, h⟩
    rw [Expr.eval, Expr.work]
    exact hpacked.map fun s a m h => h
  | .object info name inits, t, h, env, code, ip, henv, hcode, hp, hslots => by
    obtain ⟨htype, fields, rfl, hnodup, hinits⟩ := h
    simp only [expr, bind_eq_ok, typeOf_eq htype, Except.ok.injEq] at hcode
    obtain ⟨_, rfl, hcode⟩ := hcode
    simp only [bind_eq_ok, pure_eq_ok] at hcode
    obtain ⟨c, hc, rfl⟩ := hcode
    have hall := fieldValues_sim hb (Expr.evalInits_sound hsound inits hinits) hnodup
      (Expr.simInits hb hsound hcall inits hinits) fields (List.Subset.refl fields) henv hc
      (Binary.placed_append hp).1 hslots
    rw [Expr.eval, Info.type?, Expr.work, htype]
    refine (sim_pack hb (List.map Prod.snd) (Value.object name) hall hp ?_
      (length_le_extent_pushFields hc) ?_).map fun s a m h => h
    · intro a ha
      rw [List.length_map, length_fieldValues ha]
    · intro a heap w words h hw
      exact ⟨words, hw, Value.repFields_of_forall₂ h⟩
  | .call info name args, t, h, env, code, ip, henv, hcode, hp, hslots => by
    obtain ⟨_, params, hsig, hargs⟩ := h
    obtain ⟨types, htypes, hsame⟩ := hargs.exists_types
    simp only [expr, bind_eq_ok, pure_eq_ok] at hcode
    obtain ⟨c, hc, rfl⟩ := hcode
    obtain ⟨hpc, hpcall⟩ := Binary.placed_append hp
    rw [Expr.work]
    refine (Expr.simAll hb hsound hcall args htypes henv hc hpc hslots).bind ?_
      fun e he => by rw [Expr.eval, he]
    rintro ⟨vs, env₁⟩ hr
    obtain ⟨hvs, _⟩ := (Expr.evalAll_sound hsound args htypes henv).of_ok hr
    have hlength : vs.length = args.length := length_evalAll hr
    have hend := hb.end_lt hpc
    have hsmall := hb.small
    have hle := length_le_extent_exprs hc
    rw [Expr.eval, hr]
    rw [← hlength] at hpcall ⊢
    have hargs := Ty.hasAll_of_forall₂ hvs hsame
    have hsim := hcall name params t vs _ env₁ hsig hargs (by omega) hpcall
    rw [Code.extent_append, ← Nat.add_assoc]
    exact hsim.map fun s v m h => h
  | .default info _, t, h, env, code, ip, henv, hcode, hp, hslots => by
    have htype : info.type = some t := h
    simp only [expr, bind_eq_ok, pure_eq_ok, typeOf_eq htype, Except.ok.injEq] at hcode
    obtain ⟨_, rfl, rfl⟩ := hcode
    rw [Expr.eval, Expr.work, Info.type?, htype]
    exact .of_moves (moves_default hb t hp)

theorem Expr.simAll (hb : b.Runnable) (hsound : CallsSound sigs call)
    (hcall : CallsSim b least sigs call count) : ∀ (es : List Expr) {types : List Ty} {env : Env}
      {code : Code} {ip : Nat}, Expr.TypedAll sigs ctx es types → env.Typed ctx →
        exprs ctx.names es = .ok code → b.Placed ip code → ctx.names.length < 2 ^ 63 + ip →
          Sim b least (Expr.workAll call count es env) (Scene.Pushed ip [] env)
            (Expr.evalAll call es env) fun s a => s.Pushed (ip + code.extent) a.1 a.2
  | [], _, env, code, ip, _, _, hcode, hp, _ => by
    obtain rfl : [] = code := by simpa [exprs] using hcode
    exact .ok fun _ _ hs => hs
  | e :: es, _, env, code, ip, ⟨t, ts, rfl, he, hes⟩, henv, hcode, hp, hslots => by
    simp only [exprs, bind_eq_ok, pure_eq_ok] at hcode
    obtain ⟨c, hc, d, hd, rfl⟩ := hcode
    obtain ⟨hpc, hpd⟩ := Binary.placed_append hp
    have hfirst := Expr.sim hb hsound hcall e he henv hc hpc hslots
    rw [Expr.workAll]
    refine hfirst.bind ?_ fun h hh => by rw [Expr.evalAll, hh]
    rintro ⟨v, env₁⟩ hr
    obtain ⟨_, henv₁⟩ := (e.eval_sound hsound he henv).of_ok hr
    rw [Expr.evalAll, hr]
    have hrest := Expr.simAll hb hsound hcall es hes henv₁ hd hpd (by omega)
    refine (hrest.frame [v]).map fun s a m h => ?_
    rwa [Code.extent_append, ← Nat.add_assoc]

theorem Expr.simInits (hb : b.Runnable) (hsound : CallsSound sigs call)
    (hcall : CallsSim b least sigs call count) {fields : List (String × Ty)} :
    ∀ (inits : List (String × Expr)), Expr.TypedInits sigs ctx fields inits →
      ∀ field e, inits.lookup field = some e → e.Simulated b least call count ctx
  | [], _, _, _, hlookup => by simp at hlookup
  | (n, e) :: inits, ⟨⟨_, found, _, he, _⟩, hinits⟩, field, e', hlookup => by
    rw [List.lookup_cons] at hlookup
    cases hn : field == n with
    | true =>
      obtain rfl : e = e' := by simpa [hn] using hlookup
      exact Expr.sim hb hsound hcall e he
    | false =>
      exact Expr.simInits hb hsound hcall inits hinits field e' (by simpa [hn] using hlookup)

end

end Eval
end EdeLang
