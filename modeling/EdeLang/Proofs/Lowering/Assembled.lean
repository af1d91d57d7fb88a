import EdeLang.Program
import EdeLang.Proofs.Assembly.Placement
import EdeLang.Proofs.Typing.Judgement

/-!
# Lowered code can be assembled

A typed module has code. The labels of its statements carry numbers that are not used twice, so
all labels differ from each other and from those of functions, and every operand that names a
label names one that the code defines.
-/

namespace EdeLang
namespace Lowering

def numbered (id : Nat) : List String :=
  [elseLabel id, endIfLabel id, testLabel id, endLoopLabel id]

private theorem digits_eq {name : String} {id : Nat} (h : name ∈ numbered id) :
    name.toList.filter Char.isDigit = Nat.toDigits 10 id := by
  have hdigits : ∀ c ∈ Nat.toDigits 10 id, c.isDigit = true := by
    intro c hc
    exact Nat.isDigit_of_mem_toDigits (by omega) (by omega) hc
  simp only [numbered, List.mem_cons, List.not_mem_nil, or_false] at h
  rcases h with rfl | rfl | rfl | rfl
  · simpa [elseLabel, String.toList_append] using hdigits
  · simpa [endIfLabel, String.toList_append] using hdigits
  · simpa [testLabel, String.toList_append] using hdigits
  · simpa [endLoopLabel, String.toList_append] using hdigits

theorem numbered_unique {name : String} {id id' : Nat} (h : name ∈ numbered id)
    (h' : name ∈ numbered id') : id = id' := by
  have hdigits : Nat.toDigits 10 id = Nat.toDigits 10 id' := by rw [← digits_eq h, digits_eq h']
  rw [← Nat.ofDigitChars_toDigits (b := 10) (n := id) (by omega) (by omega), hdigits,
    Nat.ofDigitChars_toDigits (by omega) (by omega)]

theorem elseLabel_ne_endIfLabel (id : Nat) : elseLabel id ≠ endIfLabel id := by
  intro h
  have hlast := congrArg (fun s : String => s.toList.reverse.head?) h
  simp [elseLabel, endIfLabel, String.toList_append] at hlast

theorem testLabel_ne_endLoopLabel (id : Nat) : testLabel id ≠ endLoopLabel id := by
  intro h
  have hlast := congrArg (fun s : String => s.toList.reverse[2]?) h
  simp [testLabel, endLoopLabel, String.toList_append] at hlast

theorem head?_numbered {name : String} {id : Nat} (h : name ∈ numbered id) :
    name.toList.head? = some 'i' ∨ name.toList.head? = some 'w' := by
  simp only [numbered, List.mem_cons, List.not_mem_nil, or_false] at h
  rcases h with rfl | rfl | rfl | rfl <;>
    simp [elseLabel, endIfLabel, testLabel, endLoopLabel, String.toList_append]

theorem funcLabel_injective {name name' : String} (h : funcLabel name = funcLabel name') :
    name = name' := by
  have hlist := congrArg String.toList h
  simp only [funcLabel, String.toList_append] at hlist
  exact String.toList_inj.mp (List.append_cancel_left hlist)

/-- The code refers only to labels with the property. -/
def Refers (known : String → Prop) (code : Code) : Prop :=
  ∀ labels : Labels, (∀ name, known name → ∃ offset, labels.get name = .ok offset) →
    code.Resolvable labels

namespace Refers

variable {known known' : String → Prop} {c d : Code}

theorem mono (h : Refers known c) (himp : ∀ name, known name → known' name) :
    Refers known' c :=
  fun labels hlabels => h labels fun name hname => hlabels name (himp name hname)

theorem append (hc : Refers known c) (hd : Refers known d) : Refers known (c ++ d) := by
  intro labels hlabels i hi
  rcases List.mem_append.mp hi with hi | hi
  · exact hc labels hlabels i hi
  · exact hd labels hlabels i hi

theorem nil : Refers known [] := fun _ _ i hi => by simp at hi

theorem label (name : String) : Refers known [.label name] := fun _ _ i hi => by simp at hi

theorem inst {i : Inst} (h : ∀ labels, ∃ j, i.resolve labels = .ok j) :
    Refers known [.inst i] := by
  intro labels _ k hk
  obtain rfl : k = i := by simpa using hk
  exact h labels

theorem named {i : Inst} {name : String} (hname : known name)
    (h : ∀ labels offset, labels.get name = .ok offset → ∃ j, i.resolve labels = .ok j) :
    Refers known [.inst i] := by
  intro labels hlabels k hk
  obtain rfl : k = i := by simpa using hk
  obtain ⟨offset, hoffset⟩ := hlabels name hname
  exact h labels offset hoffset

end Refers

def IsEntry (sigs : Signatures) (name : String) : Prop :=
  ∃ f, (sigs f).isSome ∧ name = funcLabel f

/-- The code defines no labels, and names only functions in the table. -/
structure Plain (sigs : Signatures) (code : Code) : Prop where
  labels : code.labelNames = []
  refers : Refers (IsEntry sigs) code

section Expressions

variable {sigs : Signatures} {ctx : Context} {c d : Code}

theorem Plain.nil : Plain sigs [] := ⟨rfl, .nil⟩

theorem Plain.append (hc : Plain sigs c) (hd : Plain sigs d) : Plain sigs (c ++ d) :=
  ⟨by rw [Code.labelNames_append, hc.labels, hd.labels, List.append_nil],
    hc.refers.append hd.refers⟩

theorem Plain.inst {i : Inst} (h : ∀ labels, ∃ j, i.resolve labels = .ok j) :
    Plain sigs [.inst i] :=
  ⟨rfl, .inst h⟩

theorem Plain.cons {e : Element} (he : Plain sigs [e]) (hc : Plain sigs c) : Plain sigs (e :: c) :=
  he.append hc

theorem plain_push (v : Int64) : Plain sigs [push v] := .inst fun _ => ⟨_, rfl⟩

theorem plain_pack (count : Nat) : Plain sigs [pack count] := .inst fun _ => ⟨_, rfl⟩

mutual

theorem plain_pushDefault : ∀ t : Ty, Plain sigs (pushDefault t)
  | .prim .string => plain_pack 0
  | .array _ => plain_pack 0
  | .prim .unit => plain_push 0
  | .prim .int => plain_push 0
  | .prim .char => plain_push 0
  | .prim .bool => plain_push 0
  | .func _ _ => plain_push 0
  | .tuple elems => (plain_pushDefaults elems).append (plain_pack _)
  | .object _ fields => (plain_pushFieldDefaults fields).append (plain_pack _)

theorem plain_pushDefaults : ∀ ts : List Ty, Plain sigs (pushDefaults ts)
  | [] => .nil
  | t :: ts => (plain_pushDefault t).append (plain_pushDefaults ts)

theorem plain_pushFieldDefaults : ∀ fields : List (String × Ty),
    Plain sigs (pushFieldDefaults fields)
  | [] => .nil
  | (_, t) :: fields => (plain_pushDefault t).append (plain_pushFieldDefaults fields)

end

private theorem plain_pushLiteral (value : Literal) : Plain sigs (pushLiteral value) := by
  cases value with
  | unit => exact plain_push _
  | int v => exact plain_push _
  | char c => exact plain_push _
  | bool b => exact plain_push _
  | string s =>
    refine Plain.append ?_ (plain_pack _)
    induction s.toList with
    | nil => exact .nil
    | cons c cs ih => exact (plain_push _).cons ih

private theorem plain_operator (o : BinOp) (left : Ty) : Plain sigs [op (operator o left)] := by
  cases o with
  | add =>
    cases h : left == Ty.string with
    | true => exact .inst fun _ => ⟨.scat, by simp [operator, h]⟩
    | false => exact .inst fun _ => ⟨.iadd, by simp [operator, h]⟩
  | sub => exact .inst fun _ => ⟨_, rfl⟩
  | mul => exact .inst fun _ => ⟨_, rfl⟩
  | div => exact .inst fun _ => ⟨_, rfl⟩

/-- The slot of a variable is its place in the order of declaration. -/
theorem slot?_of_lookup {α : Type} {vars : List (String × α)} {name : String} {a : α}
    (h : vars.lookup name = some a) :
    ∃ k, Slots.slot? (vars.map Prod.fst) name = some k ∧ vars.reverse[k]? = some (name, a) := by
  induction vars with
  | nil => simp at h
  | cons var vars ih =>
    obtain ⟨n, a'⟩ := var
    rw [List.map_cons, Slots.slot?, List.reverse_cons]
    by_cases hname : n = name
    · subst hname
      obtain rfl : a' = a := by simpa using h
      exact ⟨vars.length, by simp, by simp⟩
    · rw [List.lookup_cons, beq_false_of_ne (Ne.symm hname)] at h
      obtain ⟨k, hslot, hk⟩ := ih h
      have hlt := (List.getElem?_eq_some_iff.mp hk).1
      exact ⟨k, by simpa [hname] using hslot, by rw [List.getElem?_append_left hlt, hk]⟩

/-- Looking a name up scope by scope finds its latest binding. -/
theorem lookup_flatten {α : Type} (scopes : List (List (String × α))) (name : String) :
    scopes.flatten.lookup name = scopes.findSome? fun scope => scope.lookup name := by
  induction scopes with
  | nil => rfl
  | cons scope scopes ih =>
    rw [List.flatten_cons, List.lookup_append, List.findSome?_cons, ih]
    cases scope.lookup name with
    | some a => rfl
    | none => rfl

private theorem exists_slot {name : String} {t : Ty} (h : ctx.find? name = some t) :
    ∃ k, slotOf ctx.names name = .ok k := by
  obtain ⟨k, hk, _⟩ := slot?_of_lookup ((lookup_flatten ctx name).trans h)
  exact ⟨k, by rw [slotOf, Context.names, hk]⟩

theorem typeOf_eq {info : Info} {t : Ty} (h : info.type = some t) : typeOf info = .ok t := by
  rw [typeOf, h]

theorem lookup_initCodes (slots : Slots) (inits : List (String × Expr)) (field : String) :
    (initCodes slots inits).lookup field = (inits.lookup field).map (expr slots) := by
  induction inits with
  | nil => rfl
  | cons init inits ih =>
    obtain ⟨n, e⟩ := init
    rw [initCodes, List.lookup_cons, List.lookup_cons]
    cases field == n with
    | true => rfl
    | false => exact ih

private theorem pushFields_ok {inits : List (String × Except LowerError Code)}
    (h : ∀ field r, inits.lookup field = some r → ∃ code, r = .ok code ∧ Plain sigs code) :
    ∀ fields : List (String × Ty), ∃ code, pushFields inits fields = .ok code ∧ Plain sigs code
  | [] => ⟨[], rfl, .nil⟩
  | (field, type) :: fields => by
    obtain ⟨rest, hrest, hplain⟩ := pushFields_ok h fields
    cases hlookup : inits.lookup field with
    | none =>
      refine ⟨pushDefault type ++ rest, ?_, (plain_pushDefault type).append hplain⟩
      simp [pushFields, hlookup, hrest, bind, Except.bind, pure, Except.pure]
    | some r =>
      obtain ⟨first, rfl, hfirst⟩ := h field r hlookup
      refine ⟨first ++ rest, ?_, hfirst.append hplain⟩
      simp [pushFields, hlookup, hrest, bind, Except.bind, pure, Except.pure]

mutual

/-- A typed expression has code. -/
theorem expr_ok : ∀ (e : Expr) {t : Ty}, e.Typed sigs ctx t →
    ∃ code, expr ctx.names e = .ok code ∧ Plain sigs code
  | .literal info value, t, _ => ⟨_, rfl, plain_pushLiteral value⟩
  | .ident info name, t, h => by
    obtain ⟨k, hk⟩ := exists_slot h.2
    refine ⟨[.inst (.sload k)], ?_, .inst fun _ => ⟨_, rfl⟩⟩
    simp [expr, hk, bind, Except.bind, pure, Except.pure]
  | .binop info o left right, t, h => by
    obtain ⟨_, l, r, hleft, hright, _⟩ := h
    obtain ⟨cr, hcr, hpr⟩ := expr_ok right hright
    obtain ⟨cl, hcl, hpl⟩ := expr_ok left hleft
    have htype := typeOf_eq hleft.type_eq
    have hswap : Plain sigs [op .swap] := .inst fun _ => ⟨_, rfl⟩
    refine ⟨cr ++ cl ++ [op .swap, op (operator o l)], ?_,
      (hpr.append hpl).append (hswap.cons (plain_operator o l))⟩
    simp [expr, hcr, hcl, htype, bind, Except.bind, pure, Except.pure]
  | .assign info name value, t, h => by
    obtain ⟨_, hfind, found, hvalue, _⟩ := h
    obtain ⟨c, hc, hp⟩ := expr_ok value hvalue
    obtain ⟨k, hk⟩ := exists_slot hfind
    have hstore : Plain sigs [.inst (.sstore k)] := .inst fun _ => ⟨_, rfl⟩
    have hload : Plain sigs [.inst (.sload k)] := .inst fun _ => ⟨_, rfl⟩
    refine ⟨c ++ [.inst (.sstore k), .inst (.sload k)], ?_, hp.append (hstore.cons hload)⟩
    simp [expr, hc, hk, bind, Except.bind, pure, Except.pure]
  | .array info elems, t, h => by
    obtain ⟨_, elem, _, helems⟩ := h
    obtain ⟨types, htypes, _⟩ := helems.exists_types
    obtain ⟨c, hc, hp⟩ := exprs_ok elems htypes
    refine ⟨c ++ [pack elems.length], ?_, hp.append (plain_pack _)⟩
    simp [expr, hc, bind, Except.bind, pure, Except.pure]
  | .tuple info elems, t, h => by
    obtain ⟨_, types, _, htypes⟩ := h
    obtain ⟨c, hc, hp⟩ := exprs_ok elems htypes
    refine ⟨c ++ [pack elems.length], ?_, hp.append (plain_pack _)⟩
    simp [expr, hc, bind, Except.bind, pure, Except.pure]
  | .object info name inits, t, h => by
    obtain ⟨htype, fields, rfl, _, hinits⟩ := h
    obtain ⟨c, hc, hp⟩ := pushFields_ok (initCodes_ok inits hinits) fields
    refine ⟨c ++ [pack fields.length], ?_, hp.append (plain_pack _)⟩
    simp [expr, typeOf_eq htype, hc, bind, Except.bind, pure, Except.pure]
  | .call info name args, t, h => by
    obtain ⟨_, params, hsig, hargs⟩ := h
    obtain ⟨types, htypes, _⟩ := hargs.exists_types
    obtain ⟨c, hc, hp⟩ := exprs_ok args htypes
    have hcall : Plain sigs [.inst (.calll (funcLabel name) args.length)] :=
      ⟨rfl, .named ⟨name, by simp [hsig], rfl⟩ fun _ _ ho => ⟨_, Inst.resolve_calll _ ho⟩⟩
    refine ⟨c ++ [.inst (.calll (funcLabel name) args.length)], ?_, hp.append hcall⟩
    simp [expr, hc, bind, Except.bind, pure, Except.pure]
  | .default info _, t, h => by
    refine ⟨pushDefault t, ?_, plain_pushDefault t⟩
    simp [expr, typeOf_eq (show info.type = some t from h), bind, Except.bind, pure, Except.pure]

theorem exprs_ok : ∀ (es : List Expr) {types : List Ty}, Expr.TypedAll sigs ctx es types →
    ∃ code, exprs ctx.names es = .ok code ∧ Plain sigs code
  | [], _, _ => ⟨[], rfl, .nil⟩
  | e :: es, _, ⟨t, ts, _, he, hes⟩ => by
    obtain ⟨c, hc, hp⟩ := expr_ok e he
    obtain ⟨d, hd, hq⟩ := exprs_ok es hes
    exact ⟨c ++ d, by simp [exprs, hc, hd, bind, Except.bind, pure, Except.pure], hp.append hq⟩

theorem initCodes_ok {fields : List (String × Ty)} : ∀ (inits : List (String × Expr)),
    Expr.TypedInits sigs ctx fields inits → ∀ field r,
      (initCodes ctx.names inits).lookup field = some r → ∃ code, r = .ok code ∧ Plain sigs code
  | [], _, field, r, h => by simp [initCodes] at h
  | (n, e) :: inits, ⟨⟨_, found, _, he, _⟩, hinits⟩, field, r, h => by
    rw [initCodes, List.lookup_cons] at h
    cases hn : field == n with
    | true =>
      obtain ⟨c, hc, hp⟩ := expr_ok e he
      exact ⟨c, by simpa [hn, hc] using h.symm, hp⟩
    | false => exact initCodes_ok inits hinits field r (by simpa [hn] using h)

end

end Expressions

/-- The labels differ from each other, and their numbers are in a range. -/
structure Fresh (lo hi : Nat) (names : List String) : Prop where
  nodup : names.Nodup
  range : ∀ name ∈ names, ∃ id, lo < id ∧ id ≤ hi ∧ name ∈ numbered id

namespace Fresh

variable {lo mid hi : Nat} {xs ys : List String}

theorem nil : Fresh lo hi [] := ⟨.nil, by simp⟩

theorem append (hxs : Fresh lo mid xs) (hys : Fresh mid hi ys) (hlo : lo ≤ mid)
    (hhi : mid ≤ hi) : Fresh lo hi (xs ++ ys) := by
  refine ⟨List.nodup_append.mpr ⟨hxs.nodup, hys.nodup, ?_⟩, ?_⟩
  · rintro x hx y hy rfl
    obtain ⟨id, _, hle, hid⟩ := hxs.range x hx
    obtain ⟨id', hlt, _, hid'⟩ := hys.range x hy
    have heq := numbered_unique hid hid'
    omega
  · intro name hname
    rcases List.mem_append.mp hname with hx | hy
    · obtain ⟨id, hlt, hle, hid⟩ := hxs.range name hx
      exact ⟨id, hlt, by omega, hid⟩
    · obtain ⟨id, hlt, hle, hid⟩ := hys.range name hy
      exact ⟨id, by omega, hle, hid⟩

theorem perm (hxs : Fresh lo hi xs) (h : xs.Perm ys) : Fresh lo hi ys :=
  ⟨h.nodup_iff.mp hxs.nodup, fun name hname => hxs.range name (h.mem_iff.mpr hname)⟩

theorem pair {a b : String} (ha : a ∈ numbered (lo + 1)) (hb : b ∈ numbered (lo + 1))
    (hne : a ≠ b) : Fresh lo (lo + 1) [a, b] := by
  refine ⟨by simpa using hne, ?_⟩
  intro name hname
  refine ⟨lo + 1, by omega, by omega, ?_⟩
  simp only [List.mem_cons, List.not_mem_nil, or_false] at hname
  rcases hname with rfl | rfl
  · exact ha
  · exact hb

end Fresh

/-- The labels of the code have new numbers, and it names only these labels and functions in the
table. -/
structure Tidy (sigs : Signatures) (lastId : Nat) (l : Lowered) : Prop where
  le : lastId ≤ l.lastId
  fresh : Fresh lastId l.lastId l.code.labelNames
  refers : Refers (fun name => name ∈ l.code.labelNames ∨ IsEntry sigs name) l.code

section Statements

variable {sigs : Signatures} {ret : Option Ty} {lastId : Nat}

private theorem Plain.tidy {code : Code} {slots : Slots} (h : Plain sigs code) :
    Tidy sigs lastId ⟨code, slots, lastId⟩ :=
  ⟨Nat.le_refl lastId, by simpa only [h.labels] using Fresh.nil, h.refers.mono fun _ => .inr⟩

private theorem plain_pops (n : Nat) : Plain sigs (List.replicate n (op .pop)) := by
  induction n with
  | zero => exact .nil
  | succ n ih =>
    have hpop : Plain sigs [op .pop] := .inst fun _ => ⟨_, rfl⟩
    exact hpop.cons ih

private theorem Tidy.seq {first rest : Lowered} (hfirst : Tidy sigs lastId first)
    (hrest : Tidy sigs first.lastId rest) :
    Tidy sigs lastId ⟨first.code ++ rest.code, rest.slots, rest.lastId⟩ := by
  refine ⟨Nat.le_trans hfirst.le hrest.le, ?_, ?_⟩
  · simpa using hfirst.fresh.append hrest.fresh hfirst.le hrest.le
  · refine (hfirst.refers.mono ?_).append (hrest.refers.mono ?_)
    · rintro name (hname | hname)
      · exact .inl (by simp [hname])
      · exact .inr hname
    · rintro name (hname | hname)
      · exact .inl (by simp [hname])
      · exact .inr hname

private theorem Tidy.closed {l : Lowered} (h : Tidy sigs lastId l) (outer : Slots) :
    Tidy sigs lastId (closed outer l) := by
  have hpops : Tidy sigs l.lastId
      ⟨List.replicate (l.slots.length - outer.length) (op .pop), outer, l.lastId⟩ :=
    (plain_pops _).tidy
  exact h.seq hpops

private theorem refers_jumpl {known : String → Prop} {name : String} (h : known name) :
    Refers known [.inst (.jumpl name)] :=
  .named h fun _ _ ho => ⟨_, Inst.resolve_jumpl ho⟩

private theorem refers_jumpzl {known : String → Prop} {name : String} (h : known name) :
    Refers known [.inst (.jumpzl name)] :=
  .named h fun _ _ ho => ⟨_, Inst.resolve_jumpzl ho⟩

/-- A statement with two labels of its own around those of its parts. -/
private theorem Tidy.around {parts : Lowered} {code : Code} {slots : Slots} {a b : String}
    (hparts : Tidy sigs (lastId + 1) parts) (hown : Fresh lastId (lastId + 1) [a, b])
    (hnames : code.labelNames.Perm ([a, b] ++ parts.code.labelNames))
    (hrefers : Refers (fun name => name ∈ [a, b] ∨ name ∈ parts.code.labelNames ∨
      IsEntry sigs name) code) : Tidy sigs lastId ⟨code, slots, parts.lastId⟩ := by
  have hle := hparts.le
  refine ⟨by simp only; omega, ?_, hrefers.mono ?_⟩
  · exact (hown.append hparts.fresh (by omega) hle).perm hnames.symm
  · rintro name (hname | hname | hname)
    · exact .inl (hnames.mem_iff.mpr (List.mem_append_left _ hname))
    · exact .inl (hnames.mem_iff.mpr (List.mem_append_right _ hname))
    · exact .inr hname

private theorem fresh_cond : Fresh lastId (lastId + 1)
    [elseLabel (lastId + 1), endIfLabel (lastId + 1)] :=
  .pair (by simp [numbered]) (by simp [numbered]) (elseLabel_ne_endIfLabel _)

private theorem fresh_loop : Fresh lastId (lastId + 1)
    [testLabel (lastId + 1), endLoopLabel (lastId + 1)] :=
  .pair (by simp [numbered]) (by simp [numbered]) (testLabel_ne_endLoopLabel _)

private theorem tidy_cond {t : Code} {y : Lowered} {slots : Slots} (ht : Plain sigs t)
    (hy : Tidy sigs (lastId + 1) y) :
    Tidy sigs lastId ⟨t ++ [.inst (.jumpzl (elseLabel (lastId + 1)))] ++ y.code ++
      [.inst (.jumpl (endIfLabel (lastId + 1))), .label (elseLabel (lastId + 1)),
        .label (endIfLabel (lastId + 1))], slots, y.lastId⟩ := by
  refine hy.around fresh_cond ?_ ?_
  · have hswap : (y.code.labelNames ++ [elseLabel (lastId + 1), endIfLabel (lastId + 1)]).Perm
        ([elseLabel (lastId + 1), endIfLabel (lastId + 1)] ++ y.code.labelNames) :=
      List.perm_append_comm
    simpa [Code.labelNames, ht.labels] using hswap
  · refine Refers.append (Refers.append (Refers.append ?_ ?_) ?_) ?_
    · exact ht.refers.mono fun _ h => .inr (.inr h)
    · exact refers_jumpzl (.inl (by simp))
    · exact hy.refers.mono fun _ h => .inr h
    · exact (refers_jumpl (.inl (by simp))).append ((Refers.label _).append (.label _))

private theorem tidy_condElse {t : Code} {y n : Lowered} {slots : Slots} (ht : Plain sigs t)
    (hy : Tidy sigs (lastId + 1) y) (hn : Tidy sigs y.lastId n) :
    Tidy sigs lastId ⟨t ++ [.inst (.jumpzl (elseLabel (lastId + 1)))] ++ y.code ++
      [.inst (.jumpl (endIfLabel (lastId + 1))), .label (elseLabel (lastId + 1))] ++ n.code ++
      [.label (endIfLabel (lastId + 1))], slots, n.lastId⟩ := by
  refine (hy.seq hn).around fresh_cond ?_ ?_
  · have hswap : (y.code.labelNames ++ elseLabel (lastId + 1) ::
        (n.code.labelNames ++ [endIfLabel (lastId + 1)])).Perm
        (elseLabel (lastId + 1) :: endIfLabel (lastId + 1) ::
          (y.code.labelNames ++ n.code.labelNames)) := by
      refine List.perm_middle.trans (.cons _ ?_)
      rw [← List.append_assoc]
      exact List.perm_append_comm
    simpa [Code.labelNames, ht.labels] using hswap
  · refine Refers.append (Refers.append (Refers.append (Refers.append (Refers.append ?_ ?_) ?_) ?_)
      ?_) (.label _)
    · exact ht.refers.mono fun _ h => .inr (.inr h)
    · exact refers_jumpzl (.inl (by simp))
    · refine hy.refers.mono fun _ h => .inr (h.imp_left fun h => ?_)
      simp [h]
    · exact (refers_jumpl (.inl (by simp))).append (.label _)
    · refine hn.refers.mono fun _ h => .inr (h.imp_left fun h => ?_)
      simp [h]

private theorem tidy_loop {t : Code} {body : Lowered} {slots : Slots} (ht : Plain sigs t)
    (hbody : Tidy sigs (lastId + 1) body) :
    Tidy sigs lastId ⟨.label (testLabel (lastId + 1)) :: t ++
      [.inst (.jumpzl (endLoopLabel (lastId + 1)))] ++ body.code ++
      [.inst (.jumpl (testLabel (lastId + 1))), .label (endLoopLabel (lastId + 1))],
      slots, body.lastId⟩ := by
  refine hbody.around fresh_loop ?_ ?_
  · simp [Code.labelNames, ht.labels]
  · refine Refers.append (Refers.append (Refers.append ((Refers.label _).append ?_) ?_) ?_) ?_
    · exact ht.refers.mono fun _ h => .inr (.inr h)
    · exact refers_jumpzl (.inl (by simp))
    · exact hbody.refers.mono fun _ h => .inr h
    · exact (refers_jumpl (.inl (by simp))).append (.label _)

private theorem initial_ok {ctx : Context} (name : String) {type : Option TypeExpr}
    {init : Option Expr} {t : Ty} (hrecorded : recordedType type init = some t)
    (hinit : InitTyped sigs ctx t init) :
    ∃ code, initial ctx.names name type init = .ok code ∧ Plain sigs code := by
  cases init with
  | some e =>
    obtain ⟨found, he, _⟩ := hinit
    exact expr_ok e he
  | none =>
    cases type with
    | none => simp [recordedType] at hrecorded
    | some written =>
      have htype : written.info.type = some t := by simpa [recordedType] using hrecorded
      refine ⟨pushDefault t, ?_, plain_pushDefault t⟩
      simp [initial, typeOf_eq htype, Except.map]

mutual

theorem stmt_ok : ∀ (s : Stmt) (lastId : Nat) {vars : List (String × Ty)} {ctx : Context},
    s.Typed sigs ret (vars :: ctx) → ∃ l, stmt (Context.names (vars :: ctx)) lastId s = .ok l ∧
      l.slots = Context.names (s.declare (vars :: ctx)) ∧ Tidy sigs lastId l
  | .var info name type init, lastId, vars, ctx, ⟨t, hrecorded, hinit⟩ => by
    obtain ⟨c, hc, hp⟩ := initial_ok name hrecorded hinit
    refine ⟨⟨c, name :: Context.names (vars :: ctx), lastId⟩, ?_, ?_, hp.tidy⟩
    · simp [stmt, hc, bind, Except.bind, pure, Except.pure]
    · simp [Stmt.declare, hrecorded]
  | .expr info e, lastId, vars, ctx, ⟨t, he⟩ => by
    obtain ⟨c, hc, hp⟩ := expr_ok e he
    have hpop : Plain sigs [op .pop] := .inst fun _ => ⟨_, rfl⟩
    refine ⟨⟨c ++ [op .pop], Context.names (vars :: ctx), lastId⟩, ?_, rfl, (hp.append hpop).tidy⟩
    simp [stmt, hc, bind, Except.bind, pure, Except.pure]
  | .block info body, lastId, vars, ctx, h => by
    obtain ⟨l, hl, _, ht⟩ := stmts_ok body lastId h
    refine ⟨_, ?_, rfl, ht.closed (Context.names (vars :: ctx))⟩
    rw [Context.names_enter] at hl
    simp only [stmt, hl, bind, Except.bind, pure, Except.pure]
  | .cond info test yes none, lastId, vars, ctx, ⟨htest, hyes⟩ => by
    obtain ⟨t, ht, hp⟩ := expr_ok test htest
    obtain ⟨y, hy, _, hty⟩ := stmt_ok yes (lastId + 1) hyes
    rw [Context.names_enter] at hy
    refine ⟨_, ?_, rfl, tidy_cond hp (hty.closed (Context.names (vars :: ctx)))⟩
    simp only [stmt, ht, hy, bind, Except.bind, pure, Except.pure]
    rfl
  | .cond info test yes (some no), lastId, vars, ctx, ⟨htest, hyes, hno⟩ => by
    obtain ⟨t, ht, hp⟩ := expr_ok test htest
    obtain ⟨y, hy, _, hty⟩ := stmt_ok yes (lastId + 1) hyes
    obtain ⟨n, hn, _, htn⟩ := stmt_ok no y.lastId hno
    rw [Context.names_enter] at hy hn
    have hyclosed := hty.closed (Context.names (vars :: ctx))
    have hnclosed := htn.closed (Context.names (vars :: ctx))
    refine ⟨_, ?_, rfl, tidy_condElse hp hyclosed hnclosed⟩
    simp only [stmt, closed, ht, hy, hn, bind, Except.bind, pure, Except.pure]
    rfl
  | .loop info test body, lastId, vars, ctx, ⟨htest, hbody⟩ => by
    obtain ⟨t, ht, hp⟩ := expr_ok test htest
    obtain ⟨l, hl, _, htl⟩ := stmt_ok body (lastId + 1) hbody
    rw [Context.names_enter] at hl
    refine ⟨_, ?_, rfl, tidy_loop hp (htl.closed (Context.names (vars :: ctx)))⟩
    simp only [stmt, ht, hl, bind, Except.bind, pure, Except.pure]
    rfl
  | .ret info (some e), lastId, vars, ctx, ⟨t, found, _, he, _⟩ => by
    obtain ⟨c, hc, hp⟩ := expr_ok e he
    have hret : Plain sigs [op .ret] := .inst fun _ => ⟨_, rfl⟩
    refine ⟨⟨c ++ [op .ret], Context.names (vars :: ctx), lastId⟩, ?_, rfl, (hp.append hret).tidy⟩
    simp [stmt, hc, bind, Except.bind, pure, Except.pure]
  | .ret info none, lastId, vars, ctx, _ => by
    have hret : Plain sigs [op .ret] := .inst fun _ => ⟨_, rfl⟩
    exact ⟨_, rfl, rfl, ((plain_push 0).cons hret).tidy⟩

theorem stmts_ok : ∀ (ss : List Stmt) (lastId : Nat) {vars : List (String × Ty)} {ctx : Context},
    Stmt.TypedAll sigs ret (vars :: ctx) ss →
      ∃ l, stmts (Context.names (vars :: ctx)) lastId ss = .ok l ∧
        l.slots = Context.names (Stmt.declareAll (vars :: ctx) ss) ∧ Tidy sigs lastId l
  | [], lastId, vars, ctx, _ => ⟨_, rfl, rfl, Plain.nil.tidy⟩
  | s :: ss, lastId, vars, ctx, ⟨hs, hss⟩ => by
    obtain ⟨first, hfirst, hslots, htidy⟩ := stmt_ok s lastId hs
    obtain ⟨vars₁, hvars₁⟩ := s.declare_cons vars ctx
    rw [hvars₁] at hslots hss
    obtain ⟨rest, hrest, hslots', htidy'⟩ := stmts_ok ss first.lastId hss
    refine ⟨⟨first.code ++ rest.code, rest.slots, rest.lastId⟩, ?_, ?_, htidy.seq htidy'⟩
    · simp [stmts, hfirst, hslots, hrest, bind, Except.bind, pure, Except.pure]
    · rw [hslots', ← hvars₁]
      rfl

end

end Statements

section Modules

variable {sigs : Signatures}

def funcCode (name : String) (body : Lowered) : Code :=
  .label (funcLabel name) :: body.code ++ [push 0, op .ret]

theorem func_ok {f : Func} (lastId : Nat) (hf : f.Typed sigs) :
    ∃ body, stmt (f.params.map Item.name).reverse lastId f.body = .ok body ∧
      func lastId f = .ok (funcCode f.name body, body.lastId) ∧ Tidy sigs lastId body := by
  have hnames : (f.params.map Item.name).reverse = Context.names [f.signature.1.reverse] := by
    simp [Context.names, Func.signature, Function.comp_def]
  obtain ⟨body, hbody, _, htidy⟩ := stmt_ok f.body lastId hf.body
  rw [← hnames] at hbody
  exact ⟨body, hbody, by simp [func, funcCode, hbody, bind, Except.bind, pure, Except.pure], htidy⟩

def entryNames (fs : List Func) : List String := fs.map fun f => funcLabel f.name

theorem funcs_ok : ∀ (fs : List Func) (seen : List String) (lastId : Nat),
    (∀ f ∈ fs, f.Typed sigs) → (seen ++ fs.map Func.name).Nodup →
      ∃ code hi own, funcs seen lastId fs = .ok (code, hi) ∧ lastId ≤ hi ∧
        Fresh lastId hi own ∧ code.labelNames.Perm (entryNames fs ++ own) ∧
        Refers (fun name => name ∈ code.labelNames ∨ IsEntry sigs name) code
  | [], seen, lastId, _, _ => ⟨[], lastId, [], rfl, Nat.le_refl _, .nil, .refl _, .nil⟩
  | f :: fs, seen, lastId, hall, hnodup => by
    obtain ⟨body, _, hfunc, htidy⟩ := func_ok lastId (hall f (by simp))
    have hnodup' : (f.name :: seen ++ fs.map Func.name).Nodup :=
      (List.perm_middle.nodup_iff).mp hnodup
    obtain ⟨rest, hi, own, hrest, hle, hfresh, hperm, hrefers⟩ :=
      funcs_ok fs (f.name :: seen) body.lastId (fun g hg => hall g (by simp [hg])) hnodup'
    have hnew : f.name ∉ seen := by
      intro hmem
      exact (List.nodup_cons.mp hnodup').1 (by simp [hmem])
    refine ⟨funcCode f.name body ++ rest, hi, body.code.labelNames ++ own, ?_, ?_, ?_, ?_, ?_⟩
    · simp [funcs, hnew, hfunc, hrest, bind, Except.bind, pure, Except.pure]
    · exact Nat.le_trans htidy.le hle
    · exact htidy.fresh.append hfresh htidy.le hle
    · have hbody : (body.code.labelNames ++ rest.labelNames).Perm
          (entryNames fs ++ (body.code.labelNames ++ own)) :=
        (hperm.append_left _).trans (List.perm_append_comm_assoc _ _ _)
      simpa [funcCode, Code.labelNames, push, op, entryNames] using hbody
    · have hend : Plain sigs [push 0, op .ret] :=
        (plain_push 0).cons (.inst fun _ => ⟨_, rfl⟩)
      refine Refers.append ?_ (hrefers.mono ?_)
      · refine Refers.append ((Refers.label _).append (htidy.refers.mono ?_))
          (hend.refers.mono fun _ => .inr)
        rintro name (hname | hname)
        · exact .inl (by simp [funcCode, Code.labelNames, hname])
        · exact .inr hname
      · rintro name (hname | hname)
        · exact .inl (by simp [hname])
        · exact .inr hname

theorem exists_of_mem_funcs {f : Func} : ∀ {fs : List Func} {seen : List String} {lastId : Nat}
    {code : Code} {hi : Nat}, funcs seen lastId fs = .ok (code, hi) → f ∈ fs →
      (∀ g ∈ fs, g.Typed sigs) → ∃ id body front back,
        stmt (f.params.map Item.name).reverse id f.body = .ok body ∧
          code = front ++ funcCode f.name body ++ back
  | [], _, _, _, _, _, hf, _ => by simp at hf
  | g :: fs, seen, lastId, code, hi, h, hf, hall => by
    obtain ⟨body, hbody, hfunc, _⟩ := func_ok lastId (hall g (by simp))
    by_cases hseen : g.name ∈ seen
    · have herror : funcs seen lastId (g :: fs) = .error (.duplicateLabel (funcLabel g.name)) := by
        simp [funcs, hseen, bind, Except.bind, throw, throwThe, MonadExceptOf.throw]
      simp [herror] at h
    · cases hrest : funcs (g.name :: seen) body.lastId fs with
      | error e => simp [funcs, hseen, hfunc, hrest, bind, Except.bind] at h
      | ok result =>
        obtain ⟨rest, hi'⟩ := result
        obtain ⟨rfl, _⟩ : funcCode g.name body ++ rest = code ∧ hi' = hi := by
          simpa [funcs, hseen, hfunc, hrest, bind, Except.bind, pure, Except.pure] using h
        rcases List.mem_cons.mp hf with rfl | hf
        · exact ⟨lastId, body, [], rest, hbody, by simp⟩
        · obtain ⟨id, body', front, back, hbody', rfl⟩ :=
            exists_of_mem_funcs hrest hf fun g hg => hall g (by simp [hg])
          exact ⟨id, body', funcCode g.name body ++ front, back, hbody', by simp⟩

private theorem status_ok {s : Stmt} (lastId : Nat) {vars : List (String × Ty)} {ctx : Context}
    (hs : s.Typed sigs none (vars :: ctx)) :
    ∃ l, status (Context.names (vars :: ctx)) lastId s = .ok l.code ∧ Tidy sigs lastId l := by
  obtain ⟨l, hl, _, htidy⟩ := stmt_ok s lastId hs
  have hzero : Tidy sigs l.lastId ⟨[push 0], l.slots, l.lastId⟩ := (plain_push 0).tidy
  cases s with
  | expr info e =>
    obtain ⟨t, he⟩ := hs
    cases hscalar : t.isScalar with
    | true =>
      obtain ⟨c, hc, hp⟩ := expr_ok e he
      refine ⟨⟨c, [], lastId⟩, ?_, hp.tidy⟩
      simp [status, typeOf_eq he.type_eq, hscalar, hc, bind, Except.bind]
    | false =>
      refine ⟨_, ?_, htidy.seq hzero⟩
      simp [status, typeOf_eq he.type_eq, hscalar, hl, bind, Except.bind, pure, Except.pure]
  | _ =>
    refine ⟨_, ?_, htidy.seq hzero⟩
    simp [status, hl, bind, Except.bind, pure, Except.pure]

theorem statements_ok : ∀ (ss : List Stmt) (lastId : Nat) {vars : List (String × Ty)}
    {ctx : Context}, Stmt.TypedAll sigs none (vars :: ctx) ss →
      ∃ l, statements (Context.names (vars :: ctx)) lastId ss = .ok l.code ∧ Tidy sigs lastId l
  | [], lastId, vars, ctx, _ => ⟨⟨[push 0], [], lastId⟩, rfl, (plain_push 0).tidy⟩
  | [last], lastId, vars, ctx, ⟨hlast, _⟩ => status_ok lastId hlast
  | s :: s' :: ss, lastId, vars, ctx, ⟨hs, hss⟩ => by
    obtain ⟨first, hfirst, hslots, htidy⟩ := stmt_ok s lastId hs
    obtain ⟨vars₁, hvars₁⟩ := s.declare_cons vars ctx
    rw [hvars₁] at hslots hss
    obtain ⟨rest, hrest, htidy'⟩ := statements_ok (s' :: ss) first.lastId hss
    refine ⟨⟨first.code ++ rest.code, rest.slots, rest.lastId⟩, ?_, htidy.seq htidy'⟩
    simp [statements, hfirst, hslots, hrest, bind, Except.bind, pure, Except.pure]

end Modules
end Lowering

namespace Module

open Lowering

def bodyCode (functions main : Code) : Code :=
  [.label startLabel, .inst (.jumpl mainLabel)] ++ functions ++ [.label mainLabel] ++ main

def wholeCode (functions main : Code) : Code :=
  bodyCode functions main ++ [.inst (.syscall .exit)]

private theorem nodup_names {fs : List Func} {own : List String} {hi : Nat}
    (hfs : (fs.map Func.name).Nodup) (hown : Fresh 0 hi own) :
    ([startLabel, mainLabel] ++ (entryNames fs ++ own)).Nodup := by
  have hentries : (entryNames fs).Nodup := by
    have hmap : entryNames fs = (fs.map Func.name).map funcLabel := by
      simp [entryNames, Function.comp_def]
    rw [hmap]
    exact hfs.map fun _ _ h => funcLabel_injective h
  -- the first character tells the kinds of labels apart
  have hentry : ∀ name ∈ entryNames fs, name.toList.head? = some 'f' := by
    intro name hname
    obtain ⟨f, _, rfl⟩ := List.mem_map.mp hname
    simp [funcLabel, String.toList_append]
  have hnumbered : ∀ name ∈ own, name.toList.head? = some 'i' ∨ name.toList.head? = some 'w' := by
    intro name hname
    obtain ⟨id, _, _, hid⟩ := hown.range name hname
    exact head?_numbered hid
  have hfixed : ∀ name ∈ [startLabel, mainLabel], name.toList.head? = some '_' := by decide
  refine List.nodup_append.mpr ⟨by decide, List.nodup_append.mpr ⟨hentries, hown.nodup, ?_⟩, ?_⟩
  · rintro name hname _ hname' rfl
    have hhead := hentry name hname
    rcases hnumbered name hname' with h | h <;> simp [hhead] at h
  · rintro name hname _ hname' rfl
    have hhead := hfixed name hname
    rcases List.mem_append.mp hname' with h | h
    · simp [hentry name h] at hhead
    · rcases hnumbered name h with h | h <;> simp [hhead] at h

/-- A typed module has code whose labels differ and whose operands resolve. -/
theorem lower_ok {m : Module} (hm : m.Typed) : ∃ functions lastId main,
    Lowering.funcs [] 0 m.funcs = .ok (functions, lastId) ∧
      statements [] lastId m.stmts = .ok main ∧
      m.lower = .ok (wholeCode functions main) ∧
      (bodyCode functions main).labelNames.Nodup ∧
      Refers (· ∈ (bodyCode functions main).labelNames) (bodyCode functions main) := by
  obtain ⟨functions, lastId, own, hfuncs, _, hfresh, hperm, hrefers⟩ :=
    funcs_ok m.funcs [] 0 hm.funcs hm.distinct
  obtain ⟨main, hmain, htidy⟩ := statements_ok m.stmts lastId hm.stmts
  have hnames : (bodyCode functions main.code).labelNames.Perm
      ([startLabel, mainLabel] ++ (entryNames m.funcs ++ (own ++ main.code.labelNames))) := by
    have hrest : (functions.labelNames ++ mainLabel :: main.code.labelNames).Perm
        (mainLabel :: (entryNames m.funcs ++ (own ++ main.code.labelNames))) := by
      refine List.perm_middle.trans (.cons _ ?_)
      rw [← List.append_assoc]
      exact hperm.append_right _
    simpa [bodyCode, Code.labelNames] using hrest
  have hentries : ∀ name, IsEntry m.signatures name →
      name ∈ (bodyCode functions main.code).labelNames := by
    rintro _ ⟨f, hf, rfl⟩
    obtain ⟨g, hg⟩ : ∃ g, m.func? f = some g := by
      rw [signatures, Option.isSome_map] at hf
      exact Option.isSome_iff_exists.mp hf
    have hmem : g ∈ m.funcs := List.mem_reverse.mp (List.mem_of_find?_eq_some hg)
    have hname : g.name = f := by simpa using List.find?_some hg
    have hentry : funcLabel f ∈ entryNames m.funcs := List.mem_map.mpr ⟨g, hmem, by rw [hname]⟩
    exact hnames.mem_iff.mpr (by simp [hentry])
  refine ⟨functions, lastId, main.code, hfuncs, hmain, ?_, ?_, ?_⟩
  · have hslots : Context.names [[]] = [] := rfl
    rw [hslots] at hmain
    simp [lower, wholeCode, bodyCode, hfuncs, hmain, bind, Except.bind, pure, Except.pure]
  · exact hnames.nodup_iff.mpr
      (nodup_names hm.distinct (hfresh.append htidy.fresh (Nat.zero_le _) htidy.le))
  · refine Refers.append (Refers.append (Refers.append ((Refers.label _).append ?_) ?_)
      (.label _)) ?_
    · exact refers_jumpl (by simp [bodyCode, Code.labelNames])
    · refine hrefers.mono ?_
      rintro name (hname | hname)
      · simp [bodyCode, Code.labelNames, hname]
      · exact hentries name hname
    · refine htidy.refers.mono ?_
      rintro name (hname | hname)
      · simp [bodyCode, Code.labelNames, hname]
      · exact hentries name hname

/-- The code of a typed module is assembled, and all of it up to the exit is placed. -/
theorem assemble_ok {m : Module} (hm : m.Typed) : ∃ functions lastId main b is,
    Lowering.funcs [] 0 m.funcs = .ok (functions, lastId) ∧
      statements [] lastId m.stmts = .ok main ∧
      m.build = .ok b ∧ b.bytes = Instruction.encodeAll (is ++ [.syscall .exit]) ∧
      Instruction.sizeAll is = (bodyCode functions main).extent ∧
      b.Placed 0 (bodyCode functions main) := by
  obtain ⟨functions, lastId, main, hfuncs, hmain, hlower, hnodup, hrefers⟩ := lower_ok hm
  have hcode : wholeCode functions main =
      bodyCode functions main ++ [.inst (.syscall .exit)] := rfl
  have hnames : (wholeCode functions main).labelNames = (bodyCode functions main).labelNames := by
    simp [hcode, Code.labelNames]
  have hlabels : ∀ name, name ∈ (bodyCode functions main).labelNames →
      ∃ offset, Labels.get ⟨Code.labelTable 0 (wholeCode functions main)⟩ name = .ok offset := by
    intro name hname
    rw [← hnames, ← Code.labelTable_map_fst 0] at hname
    obtain ⟨⟨_, offset⟩, hmem, rfl⟩ := List.mem_map.mp hname
    refine ⟨offset, Code.get_of_mem ?_ hmem⟩
    rwa [Code.labelTable_map_fst, hnames]
  have hexit : Refers (· ∈ (bodyCode functions main).labelNames) [.inst (.syscall .exit)] :=
    .inst fun _ => ⟨_, rfl⟩
  obtain ⟨b, is, j, hassemble, _, hbytes, hj, hsize, hplaced⟩ := Code.assemble_placed hcode
    (by rwa [hnames]) ((hrefers.append hexit) _ hlabels)
  obtain rfl : .syscall .exit = j := by simpa using hj
  refine ⟨functions, lastId, main, b, is, hfuncs, hmain, ?_, hbytes, hsize, hplaced⟩
  simp [build, hlower, hassemble, Except.mapError]

end Module
end EdeLang
