import EdeLang.Proofs.Syntax.Forks

/-!
# Operators and their operands

An expression is read as a row of atoms with operators between them, and the row is grouped into a
tree: arithmetic operators from the left and by their precedence, assignments from the right and
around all arithmetic. There is one such tree for each row. The loop that reads the row hands an
operator back while its precedence is too low, so what is known of a tree is paired with what is
known of the token behind it.
-/

namespace EdeLang

theorem BinOp.precedence_pos (op : BinOp) : 0 < op.precedence := by
  cases op <;> decide

namespace Grammar

open Cursor Parse

/-- Atoms under operators. The left side of an assignment is a name. -/
inductive OpTree where
  | atom (e : Expr)
  | arith (op : BinOp) (left right : OpTree)
  | assign (info : Info) (name : String) (value : OpTree)

namespace OpTree

def first : OpTree → Expr
  | .atom e => e
  | .arith _ left _ => left.first
  | .assign info name _ => .ident info name

/-- The operators from left to right, each with the atom behind it. -/
def more : OpTree → List (Operator × Expr)
  | .atom _ => []
  | .arith op left right => left.more ++ (.arith op, right.first) :: right.more
  | .assign _ _ value => (.assign, value.first) :: value.more

/-- The expression of a tree, in which operators have the places of their leftmost atoms. -/
def expr : OpTree → Expr
  | .atom e => e
  | .arith op left right => .binop (.at left.first.pos) op left.expr right.expr
  | .assign info name value => .assign (.at info.pos) name value.expr

def Binds (least : Nat) : OpTree → Prop
  | .atom _ => True
  | .arith op _ _ => least ≤ op.precedence
  | .assign _ _ _ => False

/-- On the left of an arithmetic operator nothing binds less, on its right everything binds more, and
assignments are in neither. -/
def Grouped : OpTree → Prop
  | .atom _ => True
  | .arith op left right => left.Grouped ∧ right.Grouped ∧ left.Binds op.precedence ∧
      right.Binds (op.precedence + 1)
  | .assign _ _ value => value.Grouped

variable {tree other left right : OpTree} {op : BinOp}

theorem pos_expr (tree : OpTree) : tree.expr.pos = tree.first.pos := by
  cases tree with
  | atom e => rfl
  | arith op left right => rfl
  | assign info name value => rfl

theorem eq_atom_of_expr {info : Info} {name : String} (h : tree.expr = .ident info name) :
    tree = .atom (.ident info name) := by
  cases tree with
  | atom e =>
    have he : e = .ident info name := h
    rw [he]
  | arith op left right => simp [expr] at h
  | assign info' name' value => simp [expr] at h

theorem Binds.mono {least least' : Nat} (h : tree.Binds least) (hle : least' ≤ least) :
    tree.Binds least' := by
  cases tree with
  | atom e => trivial
  | arith op left right => exact Nat.le_trans hle h
  | assign info name value => exact h

/-- In a grouped tree, the operator at the top binds least. -/
theorem Grouped.le_precedence (h : tree.Grouped) {least : Nat} (hbinds : tree.Binds least) :
    ∀ operand ∈ tree.more, least ≤ operand.1.precedence := by
  induction tree generalizing least with
  | atom e => simp [more]
  | arith op left right ihleft ihright =>
    obtain ⟨hleft, hright, hbindsLeft, hbindsRight⟩ := h
    have hleast : least ≤ op.precedence := hbinds
    have hmoreLeft := ihleft hleft (hbindsLeft.mono hleast)
    have hmoreRight := ihright hright (hbindsRight.mono (Nat.le_succ_of_le hleast))
    exact List.forall_mem_append.mpr ⟨hmoreLeft, List.forall_mem_cons.mpr ⟨hleast, hmoreRight⟩⟩
  | assign info name value ih => exact absurd hbinds id

/-- A row has one operator with nothing weaker on its left and only stronger ones on its right. -/
theorem split_eq {before before' after after' : List (Operator × Expr)}
    {operand operand' : Operator × Expr}
    (heq : before ++ operand :: after = before' ++ operand' :: after')
    (hbefore : ∀ o ∈ before, operand.1.precedence ≤ o.1.precedence)
    (hafter : ∀ o ∈ after, operand.1.precedence < o.1.precedence)
    (hbefore' : ∀ o ∈ before', operand'.1.precedence ≤ o.1.precedence)
    (hafter' : ∀ o ∈ after', operand'.1.precedence < o.1.precedence) :
    before = before' ∧ operand = operand' ∧ after = after' := by
  rcases List.append_eq_append_iff.mp heq with ⟨mid, hmid, hrest⟩ | ⟨mid, hmid, hrest⟩
  · cases mid with
    | nil => simp_all
    | cons o mid =>
      obtain ⟨rfl, rfl⟩ : operand = o ∧ after = mid ++ operand' :: after' := by simpa using hrest
      have hweak := hbefore' operand (by simp [hmid])
      have hstrong := hafter operand' (by simp)
      omega
  · cases mid with
    | nil => simp_all
    | cons o mid =>
      obtain ⟨rfl, rfl⟩ : operand' = o ∧ after' = mid ++ operand :: after := by simpa using hrest
      have hweak := hbefore operand' (by simp [hmid])
      have hstrong := hafter' operand (by simp)
      omega

theorem Grouped.ne_assign {operand : Expr} {row : List (Operator × Expr)}
    (h : (arith op left right).Grouped) :
    (arith op left right).more ≠ (.assign, operand) :: row := by
  intro heq
  have hbinds : (arith op left right).Binds op.precedence := Nat.le_refl _
  have hle := h.le_precedence hbinds (.assign, operand) (by simp [heq])
  exact absurd hle (Nat.not_le_of_lt op.precedence_pos)

/-- A row of atoms and operators is grouped in one way. -/
theorem Grouped.eq_of_row {tree other : OpTree} (h : tree.Grouped) (hother : other.Grouped)
    (hfirst : tree.first = other.first) (hmore : tree.more = other.more) : tree = other := by
  induction tree generalizing other with
  | atom e =>
    cases other with
    | atom e' => exact congrArg atom hfirst
    | arith op' left' right' => simp [more] at hmore
    | assign info' name' value' => simp [more] at hmore
  | arith op left right ihleft ihright =>
    cases other with
    | atom e' => simp [more] at hmore
    | assign info' name' value' => exact absurd hmore h.ne_assign
    | arith op' left' right' =>
      obtain ⟨hleft, hright, hbindsLeft, hbindsRight⟩ := h
      obtain ⟨hleft', hright', hbindsLeft', hbindsRight'⟩ := hother
      obtain ⟨hmoreLeft, hoperand, hmoreRight⟩ := split_eq hmore (hleft.le_precedence hbindsLeft)
        (hright.le_precedence hbindsRight) (hleft'.le_precedence hbindsLeft')
        (hright'.le_precedence hbindsRight')
      obtain ⟨hop, hfirstRight⟩ : op = op' ∧ right.first = right'.first := by
        simpa using hoperand
      rw [hop, ihleft hleft hleft' hfirst hmoreLeft, ihright hright hright' hfirstRight hmoreRight]
  | assign info name value ih =>
    cases other with
    | atom e' => simp [more] at hmore
    | arith op' left' right' => exact absurd hmore.symm hother.ne_assign
    | assign info' name' value' =>
      obtain ⟨hinfo, hname⟩ : info = info' ∧ name = name' := by simpa [first] using hfirst
      obtain ⟨hfirstValue, hmoreValue⟩ : value.first = value'.first ∧ value.more = value'.more := by
        simpa [more] using hmore
      have hvalue : value.Grouped := h
      have hvalue' : value'.Grouped := hother
      rw [hinfo, hname, ih hvalue hvalue' hfirstValue hmoreValue]

end OpTree

/-- The rule for atoms reads a phrase in front of the rest. -/
def ReadsAtom (tokens : List Token) (e : Expr) (rest : List Token) : Prop :=
  ∃ phrase, tokens = phrase ++ rest ∧ Derives .atom (phrase.map Token.kind) ∧
    ∃ fuel c c', c.plain = tokens ∧ atom fuel c = .ok e c' ∧ c'.plain = rest

/-- The tokens in front of the rest are a row: an atom, and operators each with an atom behind it. -/
inductive Row (rest : List Token) : List Token → Expr → List (Operator × Expr) → Prop
  | last {tokens : List Token} {e : Expr} (h : ReadsAtom tokens e rest) : Row rest tokens e []
  | cons {tokens tail : List Token} {t : Token} {op : Operator} {e e' : Expr}
      {more : List (Operator × Expr)} (h : ReadsAtom tokens e (t :: tail)) (hop : t.tag = op.tag)
      (hmore : Row rest tail e' more) : Row rest tokens e ((op, e') :: more)

theorem Row.append {tokens tail rest : List Token} {t : Token} {op : Operator} {e e' : Expr}
    {more more' : List (Operator × Expr)} (h : Row (t :: tail) tokens e more)
    (hop : t.tag = op.tag) (h' : Row rest tail e' more') :
    Row rest tokens e (more ++ (op, e') :: more') := by
  induction h with
  | last hatom => exact .cons hatom hop h'
  | cons hatom hop' _ ih => exact .cons hatom hop' ih

theorem readsAtom_of_ok {fuel : Nat} {c c' : Cursor} {e : Expr} (h : atom fuel c = .ok e c') :
    ReadsAtom c.plain e c'.plain := by
  have hleads := (exprsParallel fuel fuel).atom.left c
  rw [h] at hleads
  obtain ⟨phrase, hphrase⟩ : c'.plain <:+ c.plain := hleads.plain_le
  obtain ⟨kinds, hkinds, hderives, -⟩ := (exprsTake fuel).atom c e c' h
  have heq : phrase.map Token.kind = kinds := by
    rw [Cursor.kinds, Cursor.kinds, ← hphrase, List.map_append] at hkinds
    exact List.append_cancel_right hkinds
  exact ⟨phrase, hphrase.symm, heq ▸ hderives, fuel, c, c', rfl, h, rfl⟩

theorem Operator.tag_injective : Function.Injective Operator.tag := by
  intro op op' h
  cases op with
  | assign =>
    cases op' with
    | assign => rfl
    | arith op' => cases op' <;> cases h
  | arith op =>
    cases op' with
    | assign => cases op <;> cases h
    | arith op' => cases op <;> cases op' <;> simp_all [tag, kind, TokenKind.tag]

private def Finds (p : Parse (Option Operator)) (ops : List Operator) : Prop :=
  ∀ c t rest, c.plain = t :: rest → ∃ found c', p c = .ok found c' ∧ c'.plain = t :: rest ∧
    ∀ op, found = some op ↔ op ∈ ops ∧ t.tag = op.tag

private theorem finds_none : Finds (pure none) [] :=
  fun c _ _ h => ⟨none, c, rfl, h, by simp⟩

private theorem Finds.cons {p : Parse (Option Operator)} {ops : List Operator} (hp : Finds p ops)
    (op : Operator) :
    Finds (do if ← check op.tag then return some op else p) (op :: ops) := by
  intro c t rest h
  have hcheck := check_of_plain h op.tag
  have hasked : (c.asked op.tag).plain = t :: rest := (plain_asked c op.tag).trans h
  by_cases htag : t.tag = op.tag
  · rw [beq_iff_eq.mpr htag] at hcheck
    refine ⟨some op, c.asked op.tag, bind_of_ok hcheck, hasked, fun op' => ?_⟩
    rw [htag, Operator.tag_injective.eq_iff, Option.some_inj]
    exact ⟨fun heq => ⟨heq ▸ List.mem_cons_self, heq⟩, fun hfound => hfound.2⟩
  · rw [beq_eq_false_iff_ne.mpr htag] at hcheck
    obtain ⟨found, c', hrun, hplain, hfound⟩ := hp _ t rest hasked
    refine ⟨found, c', (bind_of_ok hcheck).trans hrun, hplain, fun op' => ?_⟩
    rw [hfound, List.mem_cons]
    constructor
    · rintro ⟨hmem, htag'⟩
      exact ⟨.inr hmem, htag'⟩
    · rintro ⟨rfl | hmem, htag'⟩
      · exact absurd htag' htag
      · exact ⟨hmem, htag'⟩

theorem peekOperator_of_plain {c : Cursor} {t : Token} {rest : List Token}
    (h : c.plain = t :: rest) : ∃ found c', peekOperator c = .ok found c' ∧
      c'.plain = t :: rest ∧ ∀ op, found = some op ↔ t.tag = op.tag := by
  have hfinds : Finds peekOperator [.assign, .arith .add, .arith .sub, .arith .mul, .arith .div] :=
    ((((finds_none.cons (.arith .div)).cons (.arith .mul)).cons (.arith .sub)).cons
      (.arith .add)).cons .assign
  obtain ⟨found, c', hrun, hplain, hfound⟩ := hfinds c t rest h
  refine ⟨found, c', hrun, hplain, fun op => (hfound op).trans (and_iff_right ?_)⟩
  cases op with
  | assign => simp
  | arith op => cases op <;> simp

theorem exists_plain_of_peekOperator {c c' : Cursor} {found : Option Operator}
    (h : peekOperator c = .ok found c') : ∃ t rest, c.plain = t :: rest := by
  obtain ⟨first, c₁, hcheck, -⟩ := bind_eq_ok h
  obtain ⟨_, c₂, hask, hlook⟩ := bind_eq_ok hcheck
  obtain ⟨t, c₃, hpeek, -⟩ := bind_eq_ok hlook
  cases hask
  obtain ⟨ks, hkinds, -⟩ := kinds_of_peek hpeek
  obtain ⟨t', rest, hplain, -, -⟩ := List.map_eq_cons_iff.mp hkinds
  exact ⟨t', rest, hplain⟩

theorem combine_eq_ok {op : Operator} {pos : Pos} {left right e : Expr} {c c' : Cursor}
    (h : combine op pos left right c = .ok e c') : c' = c ∧
      ((∃ o, op = .arith o ∧ e = .binop (.at left.pos) o left right) ∨
        ∃ info name, op = .assign ∧ left = .ident info name ∧
          e = .assign (.at info.pos) name right) := by
  cases op with
  | arith o =>
    cases h
    exact ⟨rfl, .inl ⟨o, rfl, rfl⟩⟩
  | assign =>
    cases left with
    | ident info name =>
      cases h
      exact ⟨rfl, .inr ⟨info, name, rfl, rfl, rfl⟩⟩
    | _ => cases h

def Stops (least : Nat) (tokens : List Token) : Prop :=
  ∃ t rest, tokens = t :: rest ∧ ∀ op : Operator, t.tag = op.tag → op.precedence < least

/-- The tree of what was read between some tokens and the rest, with operators of at least a
precedence. -/
structure Built (least : Nat) (tokens rest : List Token) (e : Expr) (tree : OpTree) : Prop where
  row : Row rest tokens tree.first tree.more
  grouped : tree.Grouped
  expr_eq : tree.expr = e
  binds : 0 < least → tree.Binds least

/-- If the next token is an arithmetic operator, the tree may be its left operand. -/
def Precedes (tree : OpTree) (tokens : List Token) : Prop :=
  ∀ t rest op, tokens = t :: rest → t.tag = (Operator.arith op).tag → tree.Binds op.precedence

section

variable {least : Nat} {tokens tail rest : List Token} {t : Token} {left right : Expr}
  {tree rightTree : OpTree}

theorem Built.arith {op : BinOp} (hleft : Built least tokens (t :: tail) left tree)
    (hprecedes : Precedes tree (t :: tail)) (htag : t.tag = (Operator.arith op).tag)
    (hleast : least ≤ op.precedence)
    (hright : Built (op.precedence + 1) tail rest right rightTree) :
    Built least tokens rest (.binop (.at left.pos) op left right) (.arith op tree rightTree) where
  row := hleft.row.append htag hright.row
  grouped := ⟨hleft.grouped, hright.grouped, hprecedes t tail op rfl htag,
    hright.binds (Nat.succ_pos _)⟩
  expr_eq := by rw [OpTree.expr, ← tree.pos_expr, hleft.expr_eq, hright.expr_eq]
  binds := fun _ => hleast

theorem Built.assign {info : Info} {name : String}
    (hleft : Built 0 tokens (t :: tail) (.ident info name) tree)
    (htag : t.tag = Operator.assign.tag) (hright : Built 0 tail rest right rightTree) :
    Built 0 tokens rest (.assign (.at info.pos) name right) (.assign info name rightTree) := by
  obtain rfl := OpTree.eq_atom_of_expr hleft.expr_eq
  refine ⟨?_, hright.grouped, ?_, fun hpos => absurd hpos (Nat.lt_irrefl 0)⟩
  · exact hleft.row.append htag hright.row
  · rw [OpTree.expr, hright.expr_eq]

/-- What is behind the right operand binds no more than the operator. -/
theorem precedes_arith {op : BinOp} (h : Stops (op.precedence + 1) rest) :
    Precedes (.arith op tree rightTree) rest := by
  obtain ⟨u, us, rfl, hstops⟩ := h
  intro t tail op' heq htag
  cases heq
  exact Nat.le_of_lt_succ (hstops (.arith op') htag)

theorem precedes_of_stops (h : Stops 0 rest) : Precedes tree rest := by
  obtain ⟨u, us, rfl, hstops⟩ := h
  intro t tail op heq htag
  cases heq
  exact absurd (hstops (.arith op) htag) (Nat.not_lt_zero _)

end

structure ClimbsBuild (fuel : Nat) : Prop where
  climb : ∀ least c e c', climb fuel least c = .ok e c' →
    ∃ tree, Built least c.plain c'.plain e tree ∧ Stops least c'.plain
  climbRest : ∀ least tokens left tree c e c', Built least tokens c.plain left tree →
    Precedes tree c.plain → climbRest fuel least left c = .ok e c' →
      ∃ whole, Built least tokens c'.plain e whole ∧ Stops least c'.plain

section Climb

variable {fuel : Nat} (h : ClimbsBuild fuel)

include h

private theorem climb_build {least : Nat} {c c' : Cursor} {e : Expr}
    (hrun : climb (fuel + 1) least c = .ok e c') :
    ∃ tree, Built least c.plain c'.plain e tree ∧ Stops least c'.plain := by
  unfold climb at hrun
  obtain ⟨left, c₁, hatom, hrun⟩ := bind_eq_ok hrun
  have hleft : Built least c.plain c₁.plain left (.atom left) :=
    ⟨.last (readsAtom_of_ok hatom), trivial, rfl, fun _ => trivial⟩
  exact h.climbRest least c.plain left _ c₁ e c' hleft (fun _ _ _ _ _ => trivial) hrun

private theorem operand_build {least : Nat} {tokens tail : List Token} {t u : Token}
    {op : Operator} {left right whole : Expr} {tree : OpTree} {c c₁ c₂ c₃ : Cursor}
    (hleft : Built least tokens (t :: tail) left tree) (hprecedes : Precedes tree (t :: tail))
    (htag : t.tag = op.tag) (hleast : least ≤ op.precedence) (hplain : c.plain = t :: tail)
    (hnext : next c = .ok u c₁) (hright : climb fuel op.rightPrecedence c₁ = .ok right c₂)
    (hwhole : combine op u.pos left right c₂ = .ok whole c₃) :
    ∃ wholeTree, Built least tokens c₃.plain whole wholeTree ∧ Precedes wholeTree c₃.plain := by
  obtain ⟨rightTree, hbuilt, hstops⟩ := h.climb _ _ _ _ hright
  obtain rfl : c.taken = c₁ := by
    rw [next_of_plain hplain] at hnext
    cases hnext
    rfl
  rw [plain_taken hplain] at hbuilt
  obtain ⟨rfl, ⟨o, rfl, rfl⟩ | ⟨info, name, rfl, rfl, rfl⟩⟩ := combine_eq_ok hwhole
  · exact ⟨_, hleft.arith hprecedes htag hleast hbuilt, precedes_arith hstops⟩
  · obtain rfl : least = 0 := Nat.le_zero.mp hleast
    exact ⟨_, hleft.assign htag hbuilt, precedes_of_stops hstops⟩

private theorem climbRest_build {least : Nat} {tokens : List Token} {left e : Expr}
    {tree : OpTree} {c c' : Cursor} (hleft : Built least tokens c.plain left tree)
    (hprecedes : Precedes tree c.plain) (hrun : climbRest (fuel + 1) least left c = .ok e c') :
    ∃ whole, Built least tokens c'.plain e whole ∧ Stops least c'.plain := by
  unfold climbRest at hrun
  obtain ⟨found, c₁, hpeek, hrun⟩ := bind_eq_ok hrun
  obtain ⟨t, tail, hplain⟩ := exists_plain_of_peekOperator hpeek
  obtain ⟨found', c₁', hpeek', hplain₁, hfound⟩ := peekOperator_of_plain hplain
  cases hpeek.symm.trans hpeek'
  rw [hplain] at hleft hprecedes
  -- the loop ends in front of a token that it declines
  have hreturn : (∀ op : Operator, t.tag = op.tag → op.precedence < least) →
      (pure left : Parse Expr) c₁ = .ok e c' →
        ∃ whole, Built least tokens c'.plain e whole ∧ Stops least c'.plain := by
    intro hdeclined hpure
    cases hpure
    rw [hplain₁]
    exact ⟨tree, hleft, t, tail, rfl, hdeclined⟩
  cases found with
  | none => exact hreturn (fun op htag => absurd ((hfound op).mpr htag) (by simp)) hrun
  | some op =>
    have htag : t.tag = op.tag := (hfound op).mp rfl
    dsimp only at hrun
    split at hrun
    · next hlow =>
      refine hreturn (fun op' htag' => ?_) hrun
      rw [← Operator.tag_injective (htag.symm.trans htag')]
      exact hlow
    · next hhigh =>
      obtain ⟨u, c₂, hnext, hrun⟩ := bind_eq_ok hrun
      obtain ⟨right, c₃, hright, hrun⟩ := bind_eq_ok hrun
      obtain ⟨whole, c₄, hwhole, hrun⟩ := bind_eq_ok hrun
      obtain ⟨wholeTree, hbuilt, hprecedes'⟩ := operand_build h hleft hprecedes htag
        (Nat.le_of_not_lt hhigh) hplain₁ hnext hright hwhole
      exact h.climbRest least tokens whole wholeTree c₄ e c' hbuilt hprecedes' hrun

end Climb

theorem climbsBuild (fuel : Nat) : ClimbsBuild fuel := by
  induction fuel with
  | zero =>
    constructor
    · intro least c e c' hrun
      cases hrun
    · intro least tokens left tree c e c' _ _ hrun
      cases hrun
  | succ fuel ih =>
    exact ⟨fun _ _ _ _ hrun => climb_build ih hrun,
      fun _ _ _ _ _ _ _ hleft hprecedes hrun => climbRest_build ih hleft hprecedes hrun⟩

/-- An expression is the one tree of the row of atoms and operators that was read, grouped by
precedence, and the row ends in front of a token that is no operator. -/
theorem parseExpr_grouped {c c' : Cursor} {e : Expr} (h : c.parseExpr = .ok e c') :
    ∃ tree : OpTree, tree.expr = e ∧ Row c'.plain c.plain tree.first tree.more ∧
      (∃ t rest, c'.plain = t :: rest ∧ ∀ op : Operator, t.tag ≠ op.tag) ∧ tree.Grouped ∧
      ∀ other : OpTree, other.Grouped → other.first = tree.first → other.more = tree.more →
        other = tree := by
  obtain ⟨tree, hbuilt, t, rest, hplain, hstops⟩ := (climbsBuild _).climb 0 c e c' h
  refine ⟨tree, hbuilt.expr_eq, hbuilt.row, ⟨t, rest, hplain, fun op htag => ?_⟩, hbuilt.grouped, ?_⟩
  · exact Nat.not_lt_zero _ (hstops op htag)
  · intro other hother hfirst hmore
    exact hother.eq_of_row hbuilt.grouped hfirst hmore

/-- The tokens of `x = a - b * c - d;`. -/
def mixedTokens : List Token :=
  [⟨.ident "x", ⟨1, 1⟩⟩, ⟨.symbol .equal, ⟨1, 3⟩⟩, ⟨.ident "a", ⟨1, 5⟩⟩, ⟨.symbol .minus, ⟨1, 7⟩⟩,
    ⟨.ident "b", ⟨1, 9⟩⟩, ⟨.symbol .star, ⟨1, 11⟩⟩, ⟨.ident "c", ⟨1, 13⟩⟩,
    ⟨.symbol .minus, ⟨1, 15⟩⟩, ⟨.ident "d", ⟨1, 17⟩⟩, ⟨.symbol .semicolon, ⟨1, 18⟩⟩,
    ⟨.eof, ⟨1, 19⟩⟩]

theorem parseExpr_grouped_mixed : ∃ e c', Cursor.parseExpr ⟨mixedTokens, []⟩ = .ok e c' ∧
    e = .assign (.at ⟨1, 1⟩) "x" (.binop (.at ⟨1, 5⟩) .sub
      (.binop (.at ⟨1, 5⟩) .sub (.ident (.at ⟨1, 5⟩) "a")
        (.binop (.at ⟨1, 9⟩) .mul (.ident (.at ⟨1, 9⟩) "b") (.ident (.at ⟨1, 13⟩) "c")))
      (.ident (.at ⟨1, 17⟩) "d")) ∧
    ∃ tree : OpTree, tree.expr = e ∧ tree.Grouped ∧
      Row c'.plain mixedTokens tree.first tree.more := by
  obtain ⟨c', hrun⟩ : ∃ c', Cursor.parseExpr ⟨mixedTokens, []⟩ = .ok _ c' := ⟨_, rfl⟩
  obtain ⟨tree, hexpr, hrow, -, hgrouped, -⟩ := parseExpr_grouped hrun
  exact ⟨_, c', hrun, rfl, tree, hexpr, hgrouped, hrow⟩

end Grammar
end EdeLang
