import EdeLang.Proofs.Syntax.Lookahead
import EdeLang.Proofs.Syntax.Nodes

/-!
# Places of nodes

Every rule of the grammar takes the place of a node from a token: the one that is ahead where the
rule starts, or one that it takes. The end is ahead of no rule that gives a node, so all nodes of a
module have the places of other tokens. A diagnostic has the place of a token, which may be the end.
-/

namespace EdeLang

namespace Node

/-- The place of a node, and those of the names that it declares. -/
def places : Node → List Pos
  | .type (.record info items) => info.pos :: items.map Item.pos
  | .type t => [t.info.pos]
  | .expr e => [e.pos]
  | .stmt s => [s.pos]
  | .definition (.object info _ fields) => info.pos :: fields.map Item.pos
  | .definition (.func info f) => info.pos :: f.params.map Item.pos
  | .module _ => []

def Placed (P : Pos → Prop) (nodes : List Node) : Prop := ∀ n ∈ nodes, ∀ p ∈ n.places, P p

variable {P : Pos → Prop}

@[simp]
theorem placed_nil : Placed P [] := by simp [Placed]

@[simp]
theorem placed_cons {n : Node} {nodes : List Node} :
    Placed P (n :: nodes) ↔ (∀ p ∈ n.places, P p) ∧ Placed P nodes := List.forall_mem_cons

@[simp]
theorem placed_append {first second : List Node} :
    Placed P (first ++ second) ↔ Placed P first ∧ Placed P second := List.forall_mem_append

end Node

@[simp]
theorem Info.pos_at (pos : Pos) : (Info.at pos).pos = pos := rfl

theorem Expr.place_of_placed {P : Pos → Prop} {e : Expr} (h : Node.Placed P e.nodes) : P e.pos :=
  h _ e.self_mem_nodes e.pos (by simp [Node.places])

theorem Stmt.place_of_placed {P : Pos → Prop} {s : Stmt} (h : Node.Placed P s.nodes) : P s.pos :=
  h _ s.self_mem_nodes s.pos (by simp [Node.places])

/-- The place of a token that is not the end. -/
def TokenPlace (stream : List Token) (pos : Pos) : Prop :=
  ∃ t ∈ stream, t.kind ≠ .eof ∧ t.pos = pos

theorem tokenPlace_of_tag {stream : List Token} {t : Token} (ht : t ∈ stream)
    (htag : t.tag ≠ .eof) : TokenPlace stream t.pos :=
  ⟨t, ht, fun heof => htag (Token.tag_eq_eof_iff.mpr heof), rfl⟩

namespace Cursor

def Anywhere (_ : Cursor) : Prop := True

/-- The next token, if there is one, is the given one. -/
def Ahead (t : Token) (c : Cursor) : Prop := ∀ u rest, c.plain = u :: rest → u = t

theorem exists_ahead (c : Cursor) : ∃ t, c.Ahead t := by
  cases hplain : c.plain with
  | nil => exact ⟨default, fun u rest hu => by simp [hplain] at hu⟩
  | cons t rest => exact ⟨t, fun u us hu => by simp_all⟩

theorem Ahead.skip {t : Token} {c : Cursor} (h : c.Ahead t) : c.skip.Ahead t := by
  intro u rest hu
  exact h u rest (c.plain_skip.symm.trans hu)

theorem Ahead.peek {t : Token} {c : Cursor} (h : c.Ahead t) :
    (t ∈ c.tokens ∧ ∃ rest, c.plain = t :: rest) ∨ c.skip.tokens = [] := by
  cases hskip : c.skip.tokens with
  | nil => exact .inr rfl
  | cons u more =>
    have hplain := plain_of_skip_tokens hskip
    have hu : u ∈ c.tokens :=
      (List.dropWhile_suffix _).mem (hskip ▸ List.mem_cons_self : u ∈ c.skip.tokens)
    obtain rfl := h u _ hplain
    exact .inl ⟨hu, _, hplain⟩

theorem peek_of_nil {c : Cursor} (h : c.skip.tokens = []) : peek c = .error .pastEnd c.skip := by
  rw [peek, h]

theorem skip_tokens_subset {stream : List Token} {c : Cursor} (h : c.tokens ⊆ stream) :
    c.skip.tokens ⊆ stream := fun _ ht => h ((List.dropWhile_suffix _).mem ht)

end Cursor

namespace Parse

open Cursor

variable {α β : Type} {stream : List Token} {p : Parse α} {f : α → Parse β}
  {A B C : Cursor → Prop} {Q Q' : α → Prop} {R : β → Prop} {t : Token}

/-- The tokens that are left are from the stream and the result is as promised, or the diagnostic is
at a token of the stream. -/
def Points (stream : List Token) (B : Cursor → Prop) (Q : α → Prop) :
    EStateM.Result Stop Cursor α → Prop
  | .ok a c => c.tokens ⊆ stream ∧ B c ∧ Q a
  | .error (.diagnostic d) _ => ∃ e : ParseError, ∃ t ∈ stream, d = e.at t.pos
  | .error _ _ => True

/-- From cursors in the stream of one kind the parser goes to such of another, with the result as
promised, or to a diagnostic at a token of the stream. -/
def Places (stream : List Token) (A : Cursor → Prop) (p : Parse α) (B : Cursor → Prop)
    (Q : α → Prop) : Prop :=
  ∀ c, c.tokens ⊆ stream → A c → Points stream B Q (p c)

theorem Points.error {stop : Stop} {c : Cursor} (h : Points stream B Q (.error stop c)) :
    Points stream C R (.error stop c) := by
  cases stop with
  | diagnostic d => exact h
  | stream e => trivial
  | pastEnd => trivial

theorem Places.bind (hp : Places stream A p B Q) (hf : ∀ a, Q a → Places stream B (f a) C R) :
    Places stream A (p >>= f) C R := by
  intro c hc hA
  have hpoints := hp c hc hA
  cases hpc : p c with
  | ok a c' =>
    rw [hpc] at hpoints
    rw [bind_of_ok hpc]
    exact hf a hpoints.2.2 c' hpoints.1 hpoints.2.1
  | error stop c' =>
    rw [hpc] at hpoints
    rw [bind_of_error hpc]
    exact hpoints.error

theorem Places.pre (h : Places stream B p C Q) (hpre : ∀ c, A c → B c) : Places stream A p C Q :=
  fun c hc hA => h c hc (hpre c hA)

theorem Places.post (h : Places stream A p B Q) (hpost : ∀ a, Q a → Q' a) :
    Places stream A p B Q' := by
  intro c hc hA
  have hpoints := h c hc hA
  cases hpc : p c with
  | ok a c' =>
    rw [hpc] at hpoints
    exact ⟨hpoints.1, hpoints.2.1, hpost a hpoints.2.2⟩
  | error stop c' =>
    rw [hpc] at hpoints
    exact hpoints.error

theorem places_anywhere (h : ∀ t, Places stream (Ahead t) p B Q) : Places stream A p B Q := by
  intro c hc _
  obtain ⟨t, ht⟩ := c.exists_ahead
  exact h t c hc ht

theorem places_pure {a : α} (h : Q a) : Places stream A (pure a) Anywhere Q :=
  fun _ hc _ => ⟨hc, trivial, h⟩

theorem places_return {a : α} (h : Q a) : Places stream A (pure a) A Q :=
  fun _ hc hA => ⟨hc, hA, h⟩

/-- Out of fuel there is nothing to show. -/
theorem places_pastEnd : Places stream A (throw .pastEnd : Parse α) B Q := fun _ _ _ => trivial

theorem places_fail {e : ParseError} (ht : t ∈ stream) :
    Places stream A (fail (e.at t.pos) : Parse α) B Q := fun _ _ _ => ⟨e, t, ht, rfl⟩

theorem places_start {f : Token → Parse β}
    (hf : t ∈ stream → Places stream (Ahead t) (f t) C R) :
    Places stream (Ahead t) (peek >>= f) C R := by
  intro c hc hahead
  rcases hahead.peek with ⟨ht, rest, hplain⟩ | hnone
  · rw [bind_of_ok (peek_of_plain hplain)]
    exact hf (hc ht) c.skip (skip_tokens_subset hc) hahead.skip
  · rw [bind_of_error (peek_of_nil hnone)]
    trivial

theorem places_check (tag : Tag) :
    Places stream (Ahead t) (check tag) (Ahead t) fun found => found = (t.tag == tag) := by
  intro c hc hahead
  rcases hahead.peek with ⟨ht, rest, hplain⟩ | hnone
  · rw [check_of_plain hplain]
    exact ⟨skip_tokens_subset hc, hahead.skip, rfl⟩
  · have hask : ask tag c = .ok () ⟨c.tokens, tag :: c.expected⟩ := rfl
    have hpeek : peek ⟨c.tokens, tag :: c.expected⟩ = .error .pastEnd (c.asked tag) :=
      peek_of_nil hnone
    unfold check
    rw [bind_of_ok hask, bind_of_error hpeek]
    trivial

theorem places_if {tag : Tag} {yes no : Parse α}
    (hyes : t.tag = tag → Places stream (Ahead t) yes B Q) (hno : Places stream (Ahead t) no B Q) :
    Places stream (Ahead t) (do if ← check tag then yes else no) B Q := by
  apply (places_check tag).bind
  intro found hfound
  split
  · next h => exact hyes (beq_iff_eq.mp (hfound.symm.trans h))
  · exact hno

theorem places_either {tag : Tag} {yes no : Parse α} (hyes : Places stream Anywhere yes B Q)
    (hno : Places stream Anywhere no B Q) :
    Places stream A (do if ← check tag then yes else no) B Q :=
  places_anywhere fun _ =>
    places_if (fun _ => hyes.pre fun _ _ => trivial) (hno.pre fun _ _ => trivial)

theorem places_next_ahead :
    Places stream (Ahead t) next Anywhere fun u => u = t ∧ t ∈ stream := by
  intro c hc hahead
  rcases hahead.peek with ⟨ht, rest, hplain⟩ | hnone
  · rw [next_of_plain hplain]
    exact ⟨fun u hu => skip_tokens_subset hc (List.mem_of_mem_tail hu), trivial, rfl, hc ht⟩
  · have hnext : next c = .error .pastEnd ⟨[], []⟩ := by rw [next, hnone]
    rw [hnext]
    trivial

theorem places_next : Places stream A next Anywhere (· ∈ stream) := by
  apply places_anywhere
  intro t
  apply places_next_ahead.post
  rintro u ⟨rfl, hu⟩
  exact hu

theorem places_failUnexpected : Places stream A (failUnexpected : Parse α) B Q := by
  apply places_anywhere
  intro t c hc hahead
  rcases hahead.peek with ⟨ht, rest, hplain⟩ | hnone
  · rw [failUnexpected_of_plain hplain]
    exact ⟨_, t, hc ht, rfl⟩
  · have hunexpected : unexpected c = .error .pastEnd c.skip := bind_of_error (peek_of_nil hnone)
    have hfail : (failUnexpected : Parse α) c = .error .pastEnd c.skip := bind_of_error hunexpected
    rw [hfail]
    trivial

theorem places_take? (tag : Tag) : Places stream A (take? tag) Anywhere
    fun found => ∀ t ∈ found, t ∈ stream ∧ t.tag = tag := by
  apply places_anywhere
  intro t
  apply places_if
  · intro htag
    apply places_next_ahead.bind
    rintro u ⟨rfl, hu⟩
    exact places_pure (by simp [hu, htag])
  · exact places_pure (by simp)

theorem places_expect (tag : Tag) :
    Places stream A (expect tag) Anywhere fun t => t ∈ stream ∧ t.tag = tag := by
  unfold expect
  apply (places_take? tag).bind
  intro found hfound
  cases found with
  | none => exact places_failUnexpected
  | some t => exact places_pure (hfound t rfl)

theorem places_expect_then {tag : Tag} (hp : Places stream Anywhere p B Q) :
    Places stream A (do let _ ← expect tag; p) B Q :=
  (places_expect tag).bind fun _ _ => hp

/-- A token that is found is not the end, so its place is that of a token. -/
theorem places_found {tag : Tag} {yes no : Parse α} (ht : t ∈ stream) (htag : tag ≠ .eof)
    (hyes : TokenPlace stream t.pos → Places stream (Ahead t) yes B Q)
    (hno : Places stream (Ahead t) no B Q) :
    Places stream (Ahead t) (do if ← check tag then yes else no) B Q :=
  places_if (fun hfound => hyes (tokenPlace_of_tag ht (hfound ▸ htag))) hno

end Parse

namespace Grammar

open Cursor Node Parse

variable {stream : List Token} {A : Cursor → Prop} {t : Token}

theorem places_ident : Places stream A ident Anywhere fun found => TokenPlace stream found.2 := by
  unfold ident
  apply (places_expect .ident).bind
  rintro t ⟨ht, htag⟩
  split
  · exact places_pure (tokenPlace_of_tag ht (by simp [htag]))
  · exact places_failUnexpected

theorem mem_of_duplicate? {items : List (Item TypeExpr)} {seen : List String}
    {item : Item TypeExpr} (h : duplicate? seen items = some item) : item ∈ items := by
  induction items generalizing seen with
  | nil => cases h
  | cons first items ih =>
    rw [duplicate?] at h
    split at h
    · cases h
      exact List.mem_cons_self
    · exact List.mem_cons_of_mem first (ih h)

theorem places_distinct {items : List (Item TypeExpr)}
    (h : ∀ i ∈ items, TokenPlace stream i.pos) :
    Places stream A (distinct items) Anywhere fun _ => True := by
  unfold distinct
  split
  · next item hitem =>
    obtain ⟨t, ht, -, hpos⟩ := h item (mem_of_duplicate? hitem)
    exact hpos ▸ places_fail ht
  · exact places_pure trivial

attribute [local simp] places TypeExpr.info Expr.pos Expr.info Stmt.pos Stmt.info TypeExpr.nodes
  TypeExpr.nodesAll TypeExpr.nodesItems Expr.nodes Expr.nodesAll Expr.nodesInits Stmt.nodes
  Stmt.nodesAll Func.nodes Def.nodes Def.nodesAll Module.nodes

structure PlacesTypes (stream : List Token) (fuel : Nat) : Prop where
  type : ∀ {A}, Places stream A (type fuel) Anywhere fun t => Placed (TokenPlace stream) t.nodes
  moreTypes : ∀ {A}, Places stream A (moreTypes fuel) Anywhere fun ts =>
    Placed (TokenPlace stream) (TypeExpr.nodesAll ts)
  item : ∀ {A}, Places stream A (item fuel) Anywhere fun i =>
    TokenPlace stream i.pos ∧ Placed (TokenPlace stream) i.type.nodes
  moreItems : ∀ {A}, Places stream A (moreItems fuel) Anywhere fun is =>
    (∀ i ∈ is, TokenPlace stream i.pos) ∧ Placed (TokenPlace stream) (TypeExpr.nodesItems is)

section Types

variable {fuel : Nat} (h : PlacesTypes stream fuel)

include h

private theorem places_type : Places stream A (type (fuel + 1)) Anywhere fun t =>
    Placed (TokenPlace stream) t.nodes := by
  apply places_anywhere
  intro start
  unfold type
  apply places_start
  intro hstart
  refine places_found hstart (by simp) ?_ ?_
  · intro hpos
    apply places_ident.bind
    rintro ⟨name, pos⟩ -
    exact places_pure (by simp [hpos])
  refine places_found hstart (by simp) ?_ ?_
  · intro hpos
    apply places_expect_then
    apply h.type.bind
    intro elem helem
    apply places_expect_then
    exact places_pure (by simp [hpos, helem])
  refine places_found hstart (by simp) ?_ ?_
  · intro hpos
    apply places_expect_then
    apply h.type.bind
    intro first hfirst
    apply places_expect_then
    apply h.type.bind
    intro second hsecond
    apply h.moreTypes.bind
    intro rest hrest
    apply places_expect_then
    exact places_pure (by simp [hpos, hfirst, hsecond, hrest])
  refine places_found hstart (by simp) ?_ ?_
  · intro hpos
    apply places_expect_then
    apply h.item.bind
    rintro first ⟨hname, hfirst⟩
    apply h.moreItems.bind
    rintro rest ⟨hnames, hrest⟩
    apply places_expect_then
    have hall : ∀ i ∈ first :: rest, TokenPlace stream i.pos :=
      List.forall_mem_cons.mpr ⟨hname, hnames⟩
    apply (places_distinct hall).bind
    intro _ _
    exact places_pure (by simpa [hpos, hfirst, hrest, hname] using hnames)
  · exact places_failUnexpected

private theorem places_moreTypes : Places stream A (moreTypes (fuel + 1)) Anywhere fun ts =>
    Placed (TokenPlace stream) (TypeExpr.nodesAll ts) := by
  unfold moreTypes
  apply (places_take? _).bind
  intro comma _
  cases comma with
  | none => exact places_pure (by simp)
  | some _ =>
    apply h.type.bind
    intro t ht
    apply h.moreTypes.bind
    intro rest hrest
    exact places_pure (by simp [ht, hrest])

private theorem places_item : Places stream A (item (fuel + 1)) Anywhere fun i =>
    TokenPlace stream i.pos ∧ Placed (TokenPlace stream) i.type.nodes := by
  unfold item
  apply places_ident.bind
  rintro ⟨name, pos⟩ hpos
  apply places_expect_then
  apply h.type.bind
  intro t ht
  exact places_pure ⟨hpos, ht⟩

private theorem places_moreItems : Places stream A (moreItems (fuel + 1)) Anywhere fun is =>
    (∀ i ∈ is, TokenPlace stream i.pos) ∧ Placed (TokenPlace stream) (TypeExpr.nodesItems is) := by
  unfold moreItems
  apply (places_take? _).bind
  intro comma _
  cases comma with
  | none => exact places_pure (by simp)
  | some _ =>
    apply h.item.bind
    rintro first ⟨hname, hfirst⟩
    apply h.moreItems.bind
    rintro rest ⟨hnames, hrest⟩
    exact places_pure ⟨List.forall_mem_cons.mpr ⟨hname, hnames⟩, by simp [hfirst, hrest]⟩

end Types

theorem placesTypes (stream : List Token) (fuel : Nat) : PlacesTypes stream fuel := by
  induction fuel with
  | zero => exact ⟨places_pastEnd, places_pastEnd, places_pastEnd, places_pastEnd⟩
  | succ fuel ih =>
    exact ⟨places_type ih, places_moreTypes ih, places_item ih, places_moreItems ih⟩

theorem places_items (fuel : Nat) (close : Tag) : Places stream A (items fuel close) Anywhere
    fun is => (∀ i ∈ is, TokenPlace stream i.pos) ∧
      Placed (TokenPlace stream) (TypeExpr.nodesItems is) := by
  have h := placesTypes stream fuel
  unfold items
  apply places_either
  · exact places_pure (by simp)
  · apply h.item.bind
    rintro first ⟨hname, hfirst⟩
    apply h.moreItems.bind
    rintro rest ⟨hnames, hrest⟩
    exact places_pure ⟨List.forall_mem_cons.mpr ⟨hname, hnames⟩, by simp [hfirst, hrest]⟩

/-- The rules for expressions with some fuel give nodes at tokens of the stream. An expression
starts at a token. -/
structure PlacesExprs (stream : List Token) (fuel : Nat) : Prop where
  climb : ∀ t least, Places stream (Ahead t) (climb fuel least) Anywhere fun e =>
    TokenPlace stream t.pos ∧ Placed (TokenPlace stream) e.nodes
  climbRest : ∀ {A} least l, Placed (TokenPlace stream) l.nodes →
    Places stream A (climbRest fuel least l) Anywhere fun e => Placed (TokenPlace stream) e.nodes
  atom : ∀ t, Places stream (Ahead t) (atom fuel) Anywhere fun e =>
    TokenPlace stream t.pos ∧ Placed (TokenPlace stream) e.nodes
  exprs : ∀ {A} close, Places stream A (exprs fuel close) Anywhere fun es =>
    Placed (TokenPlace stream) (Expr.nodesAll es)
  moreExprs : ∀ {A}, Places stream A (moreExprs fuel) Anywhere fun es =>
    Placed (TokenPlace stream) (Expr.nodesAll es)
  inits : ∀ {A} close, Places stream A (inits fuel close) Anywhere fun is =>
    Placed (TokenPlace stream) (Expr.nodesInits is)
  moreInits : ∀ {A}, Places stream A (moreInits fuel) Anywhere fun is =>
    Placed (TokenPlace stream) (Expr.nodesInits is)
  init : ∀ {A}, Places stream A (init fuel) Anywhere fun i =>
    Placed (TokenPlace stream) i.2.nodes

theorem PlacesExprs.whole {fuel : Nat} (h : PlacesExprs stream fuel) (least : Nat) :
    Places stream A (Grammar.climb fuel least) Anywhere fun e =>
      Placed (TokenPlace stream) e.nodes :=
  places_anywhere fun t => (h.climb t least).post fun _ => And.right

private theorem places_combine (op : Operator) {l r : Expr} (ht : t ∈ stream)
    (hl : Placed (TokenPlace stream) l.nodes) (hr : Placed (TokenPlace stream) r.nodes) :
    Places stream A (combine op t.pos l r) Anywhere fun e =>
      Placed (TokenPlace stream) e.nodes := by
  have hleft := Expr.place_of_placed hl
  unfold combine
  split
  · exact places_pure (by simpa [hl, hr] using hleft)
  · split
    · exact places_pure (by simpa [hr] using hleft)
    · exact places_fail ht

private theorem places_peekOperator :
    Places stream A peekOperator Anywhere fun _ => True := by
  unfold peekOperator
  apply places_either
  · exact places_pure trivial
  apply places_either
  · exact places_pure trivial
  apply places_either
  · exact places_pure trivial
  apply places_either
  · exact places_pure trivial
  apply places_either
  · exact places_pure trivial
  · exact places_pure trivial

private theorem places_checkLiteral : Places stream (Ahead t) checkLiteral (Ahead t) fun found =>
    found = true → t.tag ≠ .eof := by
  unfold checkLiteral
  apply places_if
  · exact fun htag => places_return (by simp [htag])
  apply places_if
  · exact fun htag => places_return (by simp [htag])
  apply places_if
  · exact fun htag => places_return (by simp [htag])
  apply places_if
  · exact fun htag => places_return (by simp [htag])
  · apply (places_check _).post
    intro found hfound htrue
    have htag : t.tag = kw .kFalse := beq_iff_eq.mp (hfound.symm.trans htrue)
    simp [htag]

private theorem places_literal : Places stream A literal Anywhere fun _ => True := by
  unfold literal
  apply places_next.bind
  intro t _
  cases t.kind with
  | integer | text | char => exact places_pure trivial
  | keyword k =>
    cases k with
    | kTrue | kFalse => exact places_pure trivial
    | _ => exact places_failUnexpected
  | symbol | ident | comment | invalid | eof => exact places_failUnexpected

section Exprs

variable {fuel : Nat} (h : PlacesExprs stream fuel)

include h

private theorem places_climb (least : Nat) :
    Places stream (Ahead t) (climb (fuel + 1) least) Anywhere fun e =>
      TokenPlace stream t.pos ∧ Placed (TokenPlace stream) e.nodes := by
  unfold climb
  apply (h.atom t).bind
  rintro l ⟨hpos, hl⟩
  exact (h.climbRest least l hl).post fun _ he => ⟨hpos, he⟩

private theorem places_climbRest (least : Nat) (l : Expr)
    (hl : Placed (TokenPlace stream) l.nodes) :
    Places stream A (climbRest (fuel + 1) least l) Anywhere fun e =>
      Placed (TokenPlace stream) e.nodes := by
  unfold climbRest
  apply places_peekOperator.bind
  intro op _
  cases op with
  | none => exact places_pure hl
  | some op =>
    dsimp only
    split
    · exact places_pure hl
    · apply places_next.bind
      intro t ht
      apply (h.whole _).bind
      intro r hr
      apply (places_combine op ht hl hr).bind
      intro whole hwhole
      exact h.climbRest least whole hwhole

private theorem places_atom : Places stream (Ahead t) (atom (fuel + 1)) Anywhere fun e =>
    TokenPlace stream t.pos ∧ Placed (TokenPlace stream) e.nodes := by
  unfold atom
  apply places_start
  intro ht
  apply places_checkLiteral.bind
  intro isLiteral hliteral
  split
  · next hfound =>
    have hpos := tokenPlace_of_tag ht (hliteral hfound)
    apply places_literal.bind
    intro value _
    exact places_pure ⟨hpos, by simp [hpos]⟩
  refine places_found ht (by simp) ?_ ?_
  · intro hpos
    apply places_expect_then
    apply (places_take? _).bind
    intro closed _
    split
    · exact places_pure ⟨hpos, by simp [hpos]⟩
    apply (h.whole 0).bind
    intro first hfirst
    apply (places_take? _).bind
    intro closed _
    split
    · exact places_pure ⟨hpos, hfirst⟩
    apply h.moreExprs.bind
    intro rest hrest
    apply places_expect_then
    exact places_pure ⟨hpos, by simp [hpos, hfirst, hrest]⟩
  refine places_found ht (by simp) ?_ ?_
  · intro hpos
    apply places_expect_then
    apply (h.exprs _).bind
    intro elems helems
    apply places_expect_then
    exact places_pure ⟨hpos, by simp [hpos, helems]⟩
  refine places_found ht (by simp) ?_ ?_
  · intro hpos
    apply places_expect_then
    apply places_expect_then
    apply (placesTypes stream fuel).type.bind
    intro type htype
    apply places_expect_then
    exact places_pure ⟨hpos, by simp [hpos, htype]⟩
  refine places_found ht (by simp) ?_ ?_
  · intro hpos
    apply places_ident.bind
    rintro ⟨name, pos⟩ -
    apply places_either
    · apply places_expect_then
      apply (h.exprs _).bind
      intro args hargs
      apply places_expect_then
      exact places_pure ⟨hpos, by simp [hpos, hargs]⟩
    apply places_either
    · apply places_expect_then
      apply (h.inits _).bind
      intro inits hinits
      apply places_expect_then
      exact places_pure ⟨hpos, by simp [hpos, hinits]⟩
    · exact places_pure ⟨hpos, by simp [hpos]⟩
  · exact places_failUnexpected

private theorem places_exprs (close : Tag) :
    Places stream A (exprs (fuel + 1) close) Anywhere fun es =>
      Placed (TokenPlace stream) (Expr.nodesAll es) := by
  unfold exprs
  apply places_either
  · exact places_pure (by simp)
  · apply (h.whole 0).bind
    intro first hfirst
    apply h.moreExprs.bind
    intro rest hrest
    exact places_pure (by simp [hfirst, hrest])

private theorem places_moreExprs : Places stream A (moreExprs (fuel + 1)) Anywhere fun es =>
    Placed (TokenPlace stream) (Expr.nodesAll es) := by
  unfold moreExprs
  apply (places_take? _).bind
  intro comma _
  cases comma with
  | none => exact places_pure (by simp)
  | some _ =>
    apply (h.whole 0).bind
    intro e he
    apply h.moreExprs.bind
    intro rest hrest
    exact places_pure (by simp [he, hrest])

private theorem places_inits (close : Tag) :
    Places stream A (inits (fuel + 1) close) Anywhere fun is =>
      Placed (TokenPlace stream) (Expr.nodesInits is) := by
  unfold inits
  apply places_either
  · exact places_pure (by simp)
  · apply h.init.bind
    rintro ⟨name, e⟩ he
    apply h.moreInits.bind
    intro rest hrest
    exact places_pure (by simp [he, hrest])

private theorem places_moreInits : Places stream A (moreInits (fuel + 1)) Anywhere fun is =>
    Placed (TokenPlace stream) (Expr.nodesInits is) := by
  unfold moreInits
  apply (places_take? _).bind
  intro comma _
  cases comma with
  | none => exact places_pure (by simp)
  | some _ =>
    apply h.init.bind
    rintro ⟨name, e⟩ he
    apply h.moreInits.bind
    intro rest hrest
    exact places_pure (by simp [he, hrest])

private theorem places_init : Places stream A (init (fuel + 1)) Anywhere fun i =>
    Placed (TokenPlace stream) i.2.nodes := by
  unfold init
  apply places_ident.bind
  rintro ⟨name, pos⟩ -
  apply places_expect_then
  apply (h.whole 0).bind
  intro e he
  exact places_pure he

end Exprs

theorem placesExprs (stream : List Token) (fuel : Nat) : PlacesExprs stream fuel := by
  induction fuel with
  | zero =>
    exact ⟨fun _ _ => places_pastEnd, fun _ _ _ => places_pastEnd, fun _ => places_pastEnd,
      fun _ => places_pastEnd, places_pastEnd, fun _ => places_pastEnd, places_pastEnd,
      places_pastEnd⟩
  | succ fuel ih =>
    exact ⟨fun _ => places_climb ih, places_climbRest ih, fun _ => places_atom ih,
      places_exprs ih, places_moreExprs ih, places_inits ih, places_moreInits ih, places_init ih⟩

theorem places_expr (fuel : Nat) : Places stream A (expr fuel) Anywhere fun e =>
    Placed (TokenPlace stream) e.nodes := (placesExprs stream fuel).whole 0

private theorem places_optional {α : Type} {p : Parse α} {nodes : α → List Node} (tag : Tag)
    (hp : Places stream Anywhere p Anywhere fun a => Placed (TokenPlace stream) (nodes a)) :
    Places stream A (optional tag p) Anywhere fun a =>
      Placed (TokenPlace stream) (a.elim [] nodes) := by
  unfold optional
  apply places_either
  · apply places_expect_then
    apply hp.bind
    intro a ha
    exact places_pure ha
  · exact places_pure (by simp)

structure PlacesStmts (stream : List Token) (fuel : Nat) : Prop where
  stmt : ∀ {A}, Places stream A (stmt fuel) Anywhere fun s => Placed (TokenPlace stream) s.nodes
  block : ∀ {A}, Places stream A (block fuel) Anywhere fun s => Placed (TokenPlace stream) s.nodes
  stmts : ∀ {A}, Places stream A (stmts fuel) Anywhere fun ss =>
    Placed (TokenPlace stream) (Stmt.nodesAll ss)

section Stmts

variable {fuel : Nat} (h : PlacesStmts stream fuel)

include h

private theorem places_stmt : Places stream A (stmt (fuel + 1)) Anywhere fun s =>
    Placed (TokenPlace stream) s.nodes := by
  have htype : Places stream Anywhere (type fuel) Anywhere fun t =>
      Placed (TokenPlace stream) t.nodes := (placesTypes stream fuel).type
  have hexpr : Places stream Anywhere (expr fuel) Anywhere fun e =>
      Placed (TokenPlace stream) e.nodes := places_expr fuel
  apply places_anywhere
  intro start
  unfold stmt
  apply places_start
  intro hstart
  refine places_found hstart (by simp) ?_ ?_
  · intro hpos
    apply places_expect_then
    apply places_ident.bind
    rintro ⟨name, pos⟩ -
    apply (places_optional _ htype).bind
    intro t ht
    cases t with
    | some t =>
      apply (places_optional _ hexpr).bind
      intro init hinit
      apply places_expect_then
      have ht : Placed (TokenPlace stream) t.nodes := ht
      exact places_pure (by simp [hpos, ht, hinit])
    | none =>
      apply places_expect_then
      apply hexpr.bind
      intro init hinit
      apply places_expect_then
      exact places_pure (by simp [hpos, hinit])
  refine places_found hstart (by simp) ?_ ?_
  · intro hpos
    apply places_expect_then
    apply places_expect_then
    apply hexpr.bind
    intro test htest
    apply places_expect_then
    apply h.stmt.bind
    intro yes hyes
    apply places_either
    · apply places_expect_then
      apply h.stmt.bind
      intro no hno
      exact places_pure (by simp [hpos, htest, hyes, hno])
    · exact places_pure (by simp [hpos, htest, hyes])
  refine places_found hstart (by simp) ?_ ?_
  · intro hpos
    apply places_expect_then
    apply places_expect_then
    apply hexpr.bind
    intro test htest
    apply places_expect_then
    apply h.stmt.bind
    intro body hbody
    exact places_pure (by simp [hpos, htest, hbody])
  apply places_if
  · exact fun _ => h.block
  refine places_found hstart (by simp) ?_ ?_
  · intro hpos
    apply places_expect_then
    apply places_either
    · apply places_expect_then
      exact places_pure (by simp [hpos])
    · apply hexpr.bind
      intro e he
      apply places_expect_then
      exact places_pure (by simp [hpos, he])
  · apply ((placesExprs stream fuel).climb start 0).bind
    rintro e ⟨hpos, he⟩
    apply places_expect_then
    exact places_pure (by simp [hpos, he])

private theorem places_block : Places stream A (block (fuel + 1)) Anywhere fun s =>
    Placed (TokenPlace stream) s.nodes := by
  unfold block
  apply (places_expect _).bind
  rintro brace ⟨hbrace, htag⟩
  have hpos := tokenPlace_of_tag hbrace (by simp [htag])
  apply h.stmts.bind
  intro body hbody
  apply places_expect_then
  exact places_pure (by simp [hpos, hbody])

private theorem places_stmts : Places stream A (stmts (fuel + 1)) Anywhere fun ss =>
    Placed (TokenPlace stream) (Stmt.nodesAll ss) := by
  unfold stmts
  apply places_either
  · exact places_pure (by simp)
  · apply h.stmt.bind
    intro s hs
    apply h.stmts.bind
    intro rest hrest
    exact places_pure (by simp [hs, hrest])

end Stmts

theorem placesStmts (stream : List Token) (fuel : Nat) : PlacesStmts stream fuel := by
  induction fuel with
  | zero => exact ⟨places_pastEnd, places_pastEnd, places_pastEnd⟩
  | succ fuel ih => exact ⟨places_stmt ih, places_block ih, places_stmts ih⟩

theorem places_definition (fuel : Nat) : Places stream A (definition fuel) Anywhere fun d =>
    Placed (TokenPlace stream) d.nodes := by
  unfold definition
  apply (places_expect _).bind
  rintro start ⟨hstart, htag⟩
  have hpos := tokenPlace_of_tag hstart (by simp [htag])
  apply (places_take? _).bind
  intro isObject _
  split
  · apply places_ident.bind
    rintro ⟨name, pos⟩ -
    apply places_expect_then
    apply (places_items fuel _).bind
    rintro fields ⟨hnames, hfields⟩
    apply places_expect_then
    apply (places_distinct hnames).bind
    intro _ _
    exact places_pure (by simpa [hpos, hfields] using hnames)
  apply (places_take? _).bind
  intro isFunc _
  split
  · apply places_ident.bind
    rintro ⟨name, pos⟩ hname
    apply places_expect_then
    apply (places_items fuel _).bind
    rintro params ⟨hnames, hparams⟩
    apply places_expect_then
    apply (places_distinct hnames).bind
    intro _ _
    apply (places_optional _ (placesTypes stream fuel).type).bind
    intro ret hret
    apply (placesStmts stream fuel).block.bind
    intro body hbody
    -- a result type that is not written has the place of the name
    have hresult : Placed (TokenPlace stream) (ret.getD (.name (.at pos) "unit")).nodes := by
      cases ret with
      | none => simpa using hname
      | some t => exact hret
    exact places_pure (by simpa [hpos, hparams, hresult, hbody] using hnames)
  · exact places_failUnexpected

theorem places_parts (fuel : Nat) : Places stream A (parts fuel) Anywhere fun x =>
    Placed (TokenPlace stream) (Def.nodesAll x.1) ∧
      Placed (TokenPlace stream) (Stmt.nodesAll x.2) := by
  induction fuel generalizing A with
  | zero => exact places_pastEnd
  | succ fuel ih =>
    unfold parts
    apply places_either
    · exact places_pure (by simp)
    apply places_either
    · apply (places_definition fuel).bind
      intro d hd
      apply ih.bind
      rintro ⟨defs, stmts⟩ ⟨hdefs, hstmts⟩
      exact places_pure (by simpa [hdefs, hstmts] using hd)
    · apply (placesStmts stream fuel).stmt.bind
      intro s hs
      apply ih.bind
      rintro ⟨defs, stmts⟩ ⟨hdefs, hstmts⟩
      exact places_pure (by simp [hs, hdefs, hstmts])

theorem places_module (fuel : Nat) (name : String) :
    Places stream A (module fuel name) Anywhere fun m => Placed (TokenPlace stream) m.nodes := by
  unfold module
  apply (places_parts fuel).bind
  rintro ⟨defs, stmts⟩ ⟨hdefs, hstmts⟩
  apply places_expect_then
  exact places_pure (by simp [hdefs, hstmts])

end Grammar

theorem Cursor.points_parseModule (name : String) (tokens : List Token) :
    Parse.Points tokens Anywhere (fun m => Node.Placed (TokenPlace tokens) m.nodes)
      (parseModule name ⟨tokens, []⟩) :=
  have hanywhere : Anywhere ⟨tokens, []⟩ := trivial
  Grammar.places_module _ name ⟨tokens, []⟩ (List.Subset.refl tokens) hanywhere

/-- A module that was read from a stream has its nodes at tokens before the end. -/
theorem Module.placed_of_tokens {name : String} {tokens : List Token} {m : Module}
    (h : Module.ofTokens name tokens = .ok m) : Node.Placed (TokenPlace tokens) m.nodes := by
  have hpoints := Cursor.points_parseModule name tokens
  unfold Module.ofTokens at h
  split at h
  · cases h
  · next c hc =>
    obtain ⟨-, rfl⟩ := Cursor.ofTokens_eq_ok_iff.mp hc
    split at h
    · next hparse =>
      cases h
      rw [hparse] at hpoints
      exact hpoints.2.2
    · cases h

/-- A diagnostic of a stream is at one of its tokens. -/
theorem Module.diagnostic_of_tokens {name : String} {tokens : List Token} {d : Diagnostic}
    (h : Module.ofTokens name tokens = .error (.diagnostic d)) :
    ∃ e : ParseError, ∃ t ∈ tokens, d = e.at t.pos := by
  have hpoints := Cursor.points_parseModule name tokens
  unfold Module.ofTokens at h
  split at h
  · cases h
  · next c hc =>
    obtain ⟨-, rfl⟩ := Cursor.ofTokens_eq_ok_iff.mp hc
    split at h
    · cases h
    · next hparse =>
      cases h
      rw [hparse] at hpoints
      exact hpoints

end EdeLang
