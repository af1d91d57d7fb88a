import EdeLang.Proofs.Source.Spelling
import EdeLang.Syntax.Grammar

/-!
# Comments carry no grammar

Two runs of a rule of the grammar, on cursors that differ in comments only and with any two fuels
that suffice for the tokens that are left, go the same way: they give the same tree or stop with
the same diagnostic. A stream that ends in its end token has fuel for all of its tokens.
-/

namespace EdeLang

/-- The tokens that are no comments. -/
def plainTokens (tokens : List Token) : List Token := tokens.filter fun t => !t.kind.isComment

namespace Cursor

def plain (c : Cursor) : List Token := plainTokens c.tokens

/-- The cursors differ in comments only. -/
structure Alike (c d : Cursor) : Prop where
  plain_eq : c.plain = d.plain
  expected_eq : c.expected = d.expected

theorem plain_skip (c : Cursor) : c.skip.plain = c.plain := by
  obtain ⟨tokens, expected⟩ := c
  show plainTokens (tokens.dropWhile fun t => t.kind.isComment) = plainTokens tokens
  induction tokens with
  | nil => rfl
  | cons t tokens ih =>
    by_cases ht : t.kind.isComment = true
    · rw [List.dropWhile_cons, if_pos ht, ih]
      simp [plainTokens, ht]
    · rw [List.dropWhile_cons, if_neg ht]

theorem plain_of_skip_tokens {c : Cursor} {t : Token} {more : List Token}
    (h : c.skip.tokens = t :: more) : c.plain = t :: plainTokens more := by
  have hskip : c.tokens.dropWhile (fun t => t.kind.isComment) = t :: more := h
  have ht : t.kind.isComment = false := by
    have hnot := List.head?_dropWhile_not (fun t : Token => t.kind.isComment) c.tokens
    rw [hskip] at hnot
    simpa using hnot
  rw [← c.plain_skip, plain, h]
  simp [plainTokens, ht]

theorem skip_tokens_of_plain {c : Cursor} {t : Token} {rest : List Token}
    (h : c.plain = t :: rest) :
    ∃ more, c.skip.tokens = t :: more ∧ plainTokens more = rest := by
  cases htokens : c.skip.tokens with
  | nil =>
    rw [← c.plain_skip, plain, htokens] at h
    cases h
  | cons u more =>
    rw [plain_of_skip_tokens htokens] at h
    cases h
    exact ⟨more, rfl, rfl⟩

end Cursor

theorem Token.tag_eq_eof_iff {t : Token} : t.tag = .eof ↔ t.kind = .eof := by
  unfold Token.tag
  cases t.kind <;> simp [TokenKind.tag]

/-- The last token, and no other, is the end. -/
def EndsOnce (tokens : List Token) : Prop :=
  ∃ before last, tokens = before ++ [last] ∧ last.kind = .eof ∧ ∀ t ∈ before, t.kind ≠ .eof

namespace Parse

variable {α β : Type} {P : List Token → Prop} {p q : Parse α} {f g : α → Parse β}
  {Q : α → List Token → Prop} {R : β → List Token → Prop}

/-- From cursors that differ in comments only, with tokens as they are needed, both parsers give
the same result and leave such cursors, or stop with the same diagnostic. -/
def Agrees (P : List Token → Prop) (p q : Parse α) (Q : α → List Token → Prop) : Prop :=
  ∀ c d : Cursor, c.Alike d → P c.plain →
    (∃ a c' d', p c = .ok a c' ∧ q d = .ok a d' ∧ c'.Alike d' ∧ Q a c'.plain) ∨
      ∃ diagnostic c' d', p c = .error (.diagnostic diagnostic) c' ∧
        q d = .error (.diagnostic diagnostic) d'

theorem bind_of_ok {c c' : Cursor} {a : α} (h : p c = .ok a c') : (p >>= f) c = f a c' := by
  simp only [Bind.bind, EStateM.bind, h]

theorem bind_of_error {c c' : Cursor} {stop : Stop} (h : p c = .error stop c') :
    (p >>= f) c = .error stop c' := by
  simp only [Bind.bind, EStateM.bind, h]

theorem agrees_pure {a : α} (h : ∀ ts, P ts → Q a ts) :
    Agrees P (pure a : Parse α) (pure a) Q := by
  intro c d hcd hc
  exact .inl ⟨a, c, d, rfl, rfl, hcd, h _ hc⟩

theorem agrees_fail {d : Diagnostic} :
    Agrees P (Cursor.fail d : Parse α) (Cursor.fail d) Q := by
  intro c c' _ _
  exact .inr ⟨d, c, c', rfl, rfl⟩

theorem Agrees.bind (hp : Agrees P p q Q) (hf : ∀ a, Agrees (Q a) (f a) (g a) R) :
    Agrees P (p >>= f) (q >>= g) R := by
  intro c d hcd hc
  rcases hp c d hcd hc with ⟨a, c', d', hpc, hqd, hcd', hc'⟩ | ⟨e, c', d', hpc, hqd⟩
  · rw [bind_of_ok hpc, bind_of_ok hqd]
    exact hf a c' d' hcd' hc'
  · exact .inr ⟨e, c', d', bind_of_error hpc, bind_of_error hqd⟩

theorem Agrees.mono {P' : List Token → Prop} {Q' : α → List Token → Prop} (h : Agrees P p q Q)
    (hpre : ∀ ts, P' ts → P ts) (hpost : ∀ a ts, Q a ts → Q' a ts) : Agrees P' p q Q' := by
  intro c d hcd hc
  rcases h c d hcd (hpre _ hc) with ⟨a, c', d', hpc, hqd, hcd', hc'⟩ | hstop
  · exact .inl ⟨a, c', d', hpc, hqd, hcd', hpost a _ hc'⟩
  · exact .inr hstop

/-- At most so many tokens are left, the last of which is the only end. -/
def Ready (n : Nat) (tokens : List Token) : Prop := EndsOnce tokens ∧ tokens.length ≤ n

def Going (n : Nat) (tokens : List Token) : Prop :=
  Ready n tokens ∧ ∀ t ∈ tokens.head?, t.kind ≠ .eof

theorem Ready.mono {m n : Nat} {tokens : List Token} (h : Ready m tokens) (hle : m ≤ n) :
    Ready n tokens := ⟨h.1, Nat.le_trans h.2 hle⟩

theorem Ready.exists_head {n : Nat} {tokens : List Token} (h : Ready n tokens) :
    ∃ t rest, tokens = t :: rest := by
  obtain ⟨⟨before, last, rfl, -, -⟩, -⟩ := h
  cases before with
  | nil => exact ⟨last, [], rfl⟩
  | cons t before => exact ⟨t, before ++ [last], rfl⟩

theorem not_ready_zero {tokens : List Token} : ¬ Ready 0 tokens := by
  intro h
  obtain ⟨t, rest, rfl⟩ := h.exists_head
  exact absurd h.2 (by simp)

/-- With no token left there is nothing to show. -/
theorem agrees_of_pos {n : Nat} (h : 0 < n → Agrees (Ready n) p q Q) : Agrees (Ready n) p q Q := by
  cases n with
  | zero => exact fun _ _ _ hready => absurd hready not_ready_zero
  | succ n => exact h (Nat.succ_pos n)

theorem Going.tail {n : Nat} {t : Token} {rest : List Token} (h : Going n (t :: rest)) :
    Ready (n - 1) rest := by
  obtain ⟨⟨⟨before, last, heq, hlast, hbefore⟩, hlength⟩, hhead⟩ := h
  cases before with
  | nil =>
    cases heq
    exact absurd hlast (hhead t (by simp))
  | cons u before =>
    cases heq
    refine ⟨⟨before, last, rfl, hlast, fun u hu => hbefore u (List.mem_cons_of_mem _ hu)⟩, ?_⟩
    rw [List.length_cons] at hlength
    omega

end Parse

namespace Cursor

open Parse

variable {n : Nat}

theorem agrees_peek {P : List Token → Prop} (h : ∀ ts, P ts → ∃ t rest, ts = t :: rest) :
    Agrees P peek peek fun t ts => P ts ∧ ts.head? = some t := by
  intro c d hcd hc
  obtain ⟨t, rest, hplain⟩ := h _ hc
  obtain ⟨more, hmore, -⟩ := skip_tokens_of_plain hplain
  obtain ⟨more', hmore', -⟩ := skip_tokens_of_plain (hcd.plain_eq ▸ hplain)
  refine .inl ⟨t, c.skip, d.skip, ?_, ?_, ?_, ?_, ?_⟩
  · rw [peek, hmore]
  · rw [peek, hmore']
  · exact ⟨by rw [plain_skip, plain_skip, hcd.plain_eq], hcd.expected_eq⟩
  · rwa [plain_skip]
  · rw [plain_skip, hplain, List.head?_cons]

theorem agrees_take {Q : Token → List Token → Prop} :
    Agrees (fun ts => ∃ t rest, ts = t :: rest ∧ Q t rest) next next Q := by
  intro c d hcd hc
  obtain ⟨t, rest, hplain, hrest⟩ := hc
  obtain ⟨more, hmore, heq⟩ := skip_tokens_of_plain hplain
  obtain ⟨more', hmore', heq'⟩ := skip_tokens_of_plain (hcd.plain_eq ▸ hplain)
  refine .inl ⟨t, ⟨more, []⟩, ⟨more', []⟩, ?_, ?_, ⟨heq.trans heq'.symm, rfl⟩, ?_⟩
  · rw [next, hmore]
  · rw [next, hmore']
  · show Q t (plainTokens more)
    rwa [heq]

theorem agrees_next : Agrees (Going n) next next fun _ => Ready (n - 1) := by
  apply agrees_take.mono _ fun _ _ h => h
  intro ts hgoing
  obtain ⟨t, rest, rfl⟩ := hgoing.1.exists_head
  exact ⟨t, rest, rfl, hgoing.tail⟩

theorem agrees_ask (tag : Tag) {P : List Token → Prop} :
    Agrees P (ask tag) (ask tag) fun _ => P := by
  intro c d hcd hc
  refine .inl ⟨(), _, _, rfl, rfl, ⟨hcd.plain_eq, ?_⟩, hc⟩
  show tag :: c.expected = tag :: d.expected
  rw [hcd.expected_eq]

/-- Asking for a tag keeps what is known of the tokens, and tells whether the next has it. -/
theorem agrees_check {P : List Token → Prop} (h : ∀ ts, P ts → ∃ t rest, ts = t :: rest)
    (tag : Tag) : Agrees P (check tag) (check tag) fun found ts =>
      P ts ∧ ∀ t ∈ ts.head?, found = (t.tag == tag) := by
  apply (agrees_ask tag).bind
  intro _
  apply (agrees_peek h).bind
  intro t
  apply agrees_pure
  rintro ts ⟨hts, hhead⟩
  refine ⟨hts, fun u hu => ?_⟩
  rw [hhead] at hu
  cases hu
  rfl

theorem agrees_found (tag : Tag) : Agrees (Ready n) (check tag) (check tag) fun found ts =>
    Ready n ts ∧ (found = true → ∀ t ∈ ts.head?, t.tag = tag) := by
  apply (agrees_check (fun _ h => h.exists_head) tag).mono fun _ h => h
  rintro found ts ⟨hready, hhead⟩
  refine ⟨hready, fun hfound t ht => ?_⟩
  have htag := hhead t ht
  rw [hfound] at htag
  exact beq_iff_eq.mp htag.symm

theorem agrees_look (tag : Tag) : Agrees (Ready n) (check tag) (check tag) fun _ => Ready n :=
  (agrees_found tag).mono (fun _ h => h) fun _ _ h => h.1

theorem agrees_start : Agrees (Ready n) peek peek fun _ => Ready n :=
  (agrees_peek fun _ h => h.exists_head).mono (fun _ h => h) fun _ _ h => h.1

theorem agrees_unexpected : Agrees (Ready n) unexpected unexpected fun _ => Ready n := by
  apply (agrees_peek fun ts hts => hts.exists_head).bind
  intro t c d hcd hc
  refine .inl
    ⟨(ParseError.unexpectedToken t.kind c.expectedTags).at t.pos, c, d, rfl, ?_, hcd, hc.1⟩
  have htags : c.expectedTags = d.expectedTags := by
    unfold expectedTags
    rw [hcd.expected_eq]
  rw [htags]
  rfl

theorem agrees_failUnexpected {α : Type} {Q : α → List Token → Prop} :
    Agrees (Ready n) failUnexpected failUnexpected Q := by
  apply agrees_unexpected.bind
  intro d
  exact agrees_fail

theorem going_of_tag {tag : Tag} (htag : tag ≠ .eof) {ts : List Token} (hready : Ready n ts)
    (hhead : ∀ t ∈ ts.head?, t.tag = tag) : Going n ts := by
  refine ⟨hready, fun t ht heof => htag ?_⟩
  rw [← hhead t ht, Token.tag_eq_eof_iff.mpr heof]

/-- Taking a token costs one of those that are left. -/
theorem agrees_take? {tag : Tag} (htag : tag ≠ .eof) : Agrees (Ready n) (take? tag) (take? tag)
    fun t ts => Ready (n - t.elim 0 fun _ => 1) ts := by
  apply (agrees_found tag).bind
  intro found
  cases found with
  | false =>
    apply agrees_pure
    intro ts hts
    exact hts.1
  | true =>
    have hnext : Agrees (fun ts => Ready n ts ∧ (true = true → ∀ t ∈ ts.head?, t.tag = tag)) next
        next fun _ ts => Ready (n - 1) ts :=
      agrees_next.mono (fun ts hts => going_of_tag htag hts.1 (hts.2 rfl)) fun _ _ h => h
    apply hnext.bind
    intro t
    apply agrees_pure
    exact fun ts hts => hts

theorem agrees_expect {tag : Tag} (htag : tag ≠ .eof) :
    Agrees (Ready n) (expect tag) (expect tag) fun _ ts => Ready (n - 1) ts := by
  apply (agrees_take? htag).bind
  intro t
  cases t with
  | none => exact agrees_failUnexpected
  | some t =>
    apply agrees_pure
    exact fun ts hts => hts

end Cursor

namespace Grammar

open Cursor Parse

variable {n : Nat}

theorem agrees_symbol (s : Symbol) :
    Agrees (Ready n) (expect (sym s)) (expect (sym s)) fun _ => Ready (n - 1) :=
  agrees_expect nofun

theorem agrees_keyword (k : Keyword) :
    Agrees (Ready n) (expect (kw k)) (expect (kw k)) fun _ => Ready (n - 1) :=
  agrees_expect nofun

theorem agrees_symbol? (s : Symbol) : Agrees (Ready n) (take? (sym s)) (take? (sym s))
    fun t => Ready (n - t.elim 0 fun _ => 1) :=
  agrees_take? nofun

theorem agrees_keyword? (k : Keyword) : Agrees (Ready n) (take? (kw k)) (take? (kw k))
    fun t => Ready (n - t.elim 0 fun _ => 1) :=
  agrees_take? nofun

theorem agrees_ident : Agrees (Ready n) ident ident fun _ => Ready (n - 1) := by
  have hexpect : Agrees (Ready n) (expect .ident) (expect .ident) fun _ => Ready (n - 1) :=
    agrees_expect nofun
  apply hexpect.bind
  intro t
  split
  · exact agrees_pure fun _ h => h
  · exact agrees_failUnexpected

theorem agrees_distinct (items : List (Item TypeExpr)) :
    Agrees (Ready n) (distinct items) (distinct items) fun _ => Ready n := by
  unfold distinct
  split
  · exact agrees_fail
  · exact agrees_pure fun _ h => h

/-- The rules for types agree if both fuels are at least the number of tokens that are left. -/
structure TypesAgree (fuel fuel' : Nat) : Prop where
  type : ∀ {n}, n ≤ fuel → n ≤ fuel' →
    Agrees (Ready n) (type fuel) (type fuel') fun _ => Ready (n - 1)
  moreTypes : ∀ {n}, n ≤ fuel → n ≤ fuel' →
    Agrees (Ready n) (moreTypes fuel) (moreTypes fuel') fun _ => Ready n
  item : ∀ {n}, n ≤ fuel → n ≤ fuel' →
    Agrees (Ready n) (item fuel) (item fuel') fun _ => Ready (n - 1)
  moreItems : ∀ {n}, n ≤ fuel → n ≤ fuel' →
    Agrees (Ready n) (moreItems fuel) (moreItems fuel') fun _ => Ready n

section Types

variable {fuel fuel' : Nat} (h : TypesAgree fuel fuel') (hn : n ≤ fuel + 1) (hn' : n ≤ fuel' + 1)

include h hn hn'

private theorem agrees_type :
    Agrees (Ready n) (type (fuel + 1)) (type (fuel' + 1)) fun _ => Ready (n - 1) := by
  unfold type
  apply agrees_start.bind
  intro start
  apply (agrees_look _).bind
  intro named
  split
  · apply agrees_ident.bind
    rintro ⟨name, pos⟩
    exact agrees_pure fun _ hready => hready
  apply (agrees_look _).bind
  intro bracket
  split
  · apply (agrees_symbol _).bind
    intro _
    apply (h.type (by omega) (by omega)).bind
    intro elem
    apply (agrees_symbol _).bind
    intro _
    exact agrees_pure fun _ hready => hready.mono (by omega)
  apply (agrees_look _).bind
  intro paren
  split
  · apply (agrees_symbol _).bind
    intro _
    apply (h.type (by omega) (by omega)).bind
    intro first
    apply (agrees_symbol _).bind
    intro _
    apply (h.type (by omega) (by omega)).bind
    intro second
    apply (h.moreTypes (by omega) (by omega)).bind
    intro rest
    apply (agrees_symbol _).bind
    intro _
    exact agrees_pure fun _ hready => hready.mono (by omega)
  apply (agrees_look _).bind
  intro curly
  split
  · apply (agrees_symbol _).bind
    intro _
    apply (h.item (by omega) (by omega)).bind
    intro first
    apply (h.moreItems (by omega) (by omega)).bind
    intro rest
    apply (agrees_symbol _).bind
    intro _
    apply (agrees_distinct _).bind
    intro _
    exact agrees_pure fun _ hready => hready.mono (by omega)
  · exact agrees_failUnexpected

private theorem agrees_moreTypes :
    Agrees (Ready n) (moreTypes (fuel + 1)) (moreTypes (fuel' + 1)) fun _ => Ready n := by
  unfold moreTypes
  apply (agrees_symbol? _).bind
  intro comma
  cases comma with
  | none => exact agrees_pure fun _ hready => hready
  | some _ =>
    apply (h.type (n := n - 1) (by omega) (by omega)).bind
    intro t
    apply (h.moreTypes (by omega) (by omega)).bind
    intro rest
    exact agrees_pure fun _ hready => hready.mono (by omega)

private theorem agrees_item :
    Agrees (Ready n) (item (fuel + 1)) (item (fuel' + 1)) fun _ => Ready (n - 1) := by
  unfold item
  apply agrees_ident.bind
  rintro ⟨name, pos⟩
  apply (agrees_symbol _).bind
  intro _
  apply (h.type (by omega) (by omega)).bind
  intro t
  exact agrees_pure fun _ hready => hready.mono (by omega)

private theorem agrees_moreItems :
    Agrees (Ready n) (moreItems (fuel + 1)) (moreItems (fuel' + 1)) fun _ => Ready n := by
  unfold moreItems
  apply (agrees_symbol? _).bind
  intro comma
  cases comma with
  | none => exact agrees_pure fun _ hready => hready
  | some _ =>
    apply (h.item (n := n - 1) (by omega) (by omega)).bind
    intro i
    apply (h.moreItems (by omega) (by omega)).bind
    intro rest
    exact agrees_pure fun _ hready => hready.mono (by omega)

end Types

theorem typesAgree (fuel fuel' : Nat) : TypesAgree fuel fuel' := by
  induction fuel generalizing fuel' with
  | zero =>
    exact ⟨fun hn _ => agrees_of_pos (by omega), fun hn _ => agrees_of_pos (by omega),
      fun hn _ => agrees_of_pos (by omega), fun hn _ => agrees_of_pos (by omega)⟩
  | succ fuel ih =>
    cases fuel' with
    | zero =>
      exact ⟨fun _ hn => agrees_of_pos (by omega), fun _ hn => agrees_of_pos (by omega),
        fun _ hn => agrees_of_pos (by omega), fun _ hn => agrees_of_pos (by omega)⟩
    | succ fuel' =>
      exact ⟨agrees_type (ih fuel'), agrees_moreTypes (ih fuel'), agrees_item (ih fuel'),
        agrees_moreItems (ih fuel')⟩

theorem agrees_items {fuel fuel' : Nat} (hn : n ≤ fuel) (hn' : n ≤ fuel') (close : Tag) :
    Agrees (Ready n) (items fuel close) (items fuel' close) fun _ => Ready n := by
  unfold items
  apply (agrees_look close).bind
  intro closed
  split
  · exact agrees_pure fun _ hready => hready
  · apply ((typesAgree fuel fuel').item hn hn').bind
    intro first
    apply ((typesAgree fuel fuel').moreItems (by omega) (by omega)).bind
    intro rest
    exact agrees_pure fun _ hready => hready.mono (by omega)

private theorem agrees_orElse {α : Type} {a : α} {p : Parse α} {Q : α → List Token → Prop}
    {tag : Tag} (htag : tag ≠ .eof) (ha : ∀ ts, Going n ts → Q a ts)
    (hp : Agrees (Ready n) p p Q) :
    Agrees (Ready n) (do if ← check tag then return a else p)
      (do if ← check tag then return a else p) Q := by
  apply (agrees_found tag).bind
  intro found
  cases found with
  | true =>
    apply agrees_pure
    intro ts hts
    exact ha ts (going_of_tag htag hts.1 (hts.2 rfl))
  | false => exact hp.mono (fun _ hts => hts.1) fun _ _ h => h

private theorem agrees_peekOperator : Agrees (Ready n) peekOperator peekOperator
    fun op ts => op.elim (Ready n ts) fun _ => Going n ts := by
  unfold peekOperator
  exact agrees_orElse nofun (fun _ h => h) (agrees_orElse nofun (fun _ h => h)
    (agrees_orElse nofun (fun _ h => h) (agrees_orElse nofun (fun _ h => h)
    (agrees_orElse nofun (fun _ h => h) (agrees_pure fun _ h => h)))))

private theorem agrees_checkLiteral : Agrees (Ready n) checkLiteral checkLiteral
    fun found ts => Ready n ts ∧ (found = true → Going n ts) := by
  have htag : kw .kFalse ≠ .eof := nofun
  have hlast : Agrees (Ready n) (check (kw .kFalse)) (check (kw .kFalse))
      fun found ts => Ready n ts ∧ (found = true → Going n ts) :=
    (agrees_found _).mono (fun _ h => h) fun _ _ h =>
      ⟨h.1, fun hfound => going_of_tag htag h.1 (h.2 hfound)⟩
  unfold checkLiteral
  exact agrees_orElse nofun (fun _ h => ⟨h.1, fun _ => h⟩)
    (agrees_orElse nofun (fun _ h => ⟨h.1, fun _ => h⟩)
    (agrees_orElse nofun (fun _ h => ⟨h.1, fun _ => h⟩)
    (agrees_orElse nofun (fun _ h => ⟨h.1, fun _ => h⟩) hlast)))

private theorem agrees_literal :
    Agrees (Going n) literal literal fun _ => Ready (n - 1) := by
  unfold literal
  apply agrees_next.bind
  intro t
  cases t.kind with
  | integer v => exact agrees_pure fun _ h => h
  | text s => exact agrees_pure fun _ h => h
  | char c => exact agrees_pure fun _ h => h
  | keyword k =>
    cases k with
    | kTrue | kFalse => exact agrees_pure fun _ h => h
    | _ => exact agrees_failUnexpected
  | symbol | ident | comment | invalid | eof => exact agrees_failUnexpected

private theorem agrees_combine (op : Operator) (pos : Pos) (left right : Expr) :
    Agrees (Ready n) (combine op pos left right) (combine op pos left right) fun _ => Ready n := by
  unfold combine
  split
  · exact agrees_pure fun _ h => h
  · split
    · exact agrees_pure fun _ h => h
    · exact agrees_fail

/-- The rules for expressions agree if both fuels are three times the number of tokens that are
left, and more where a rule starts with another one. -/
structure ExprsAgree (fuel fuel' : Nat) : Prop where
  climb : ∀ {n}, 3 * n + 1 ≤ fuel → 3 * n + 1 ≤ fuel' → ∀ least,
    Agrees (Ready n) (climb fuel least) (climb fuel' least) fun _ => Ready (n - 1)
  climbRest : ∀ {n}, 3 * n ≤ fuel → 3 * n ≤ fuel' → ∀ least left,
    Agrees (Ready n) (climbRest fuel least left) (climbRest fuel' least left) fun _ => Ready n
  atom : ∀ {n}, 3 * n ≤ fuel → 3 * n ≤ fuel' →
    Agrees (Ready n) (atom fuel) (atom fuel') fun _ => Ready (n - 1)
  exprs : ∀ {n}, 3 * n + 2 ≤ fuel → 3 * n + 2 ≤ fuel' → ∀ close,
    Agrees (Ready n) (exprs fuel close) (exprs fuel' close) fun _ => Ready n
  moreExprs : ∀ {n}, 3 * n ≤ fuel → 3 * n ≤ fuel' →
    Agrees (Ready n) (moreExprs fuel) (moreExprs fuel') fun _ => Ready n
  inits : ∀ {n}, 3 * n + 1 ≤ fuel → 3 * n + 1 ≤ fuel' → ∀ close,
    Agrees (Ready n) (inits fuel close) (inits fuel' close) fun _ => Ready n
  moreInits : ∀ {n}, 3 * n ≤ fuel → 3 * n ≤ fuel' →
    Agrees (Ready n) (moreInits fuel) (moreInits fuel') fun _ => Ready n
  init : ∀ {n}, 3 * n ≤ fuel → 3 * n ≤ fuel' →
    Agrees (Ready n) (init fuel) (init fuel') fun _ => Ready (n - 1)

section Exprs

variable {fuel fuel' : Nat} (h : ExprsAgree fuel fuel')

include h

private theorem agrees_climb (hn : 3 * n + 1 ≤ fuel + 1) (hn' : 3 * n + 1 ≤ fuel' + 1)
    (least : Nat) :
    Agrees (Ready n) (climb (fuel + 1) least) (climb (fuel' + 1) least)
      fun _ => Ready (n - 1) := by
  unfold climb
  apply (h.atom (by omega) (by omega)).bind
  intro left
  exact h.climbRest (by omega) (by omega) least left

private theorem agrees_climbRest (hn : 3 * n ≤ fuel + 1) (hn' : 3 * n ≤ fuel' + 1) (least : Nat)
    (left : Expr) :
    Agrees (Ready n) (climbRest (fuel + 1) least left) (climbRest (fuel' + 1) least left)
      fun _ => Ready n := by
  apply agrees_of_pos
  intro hpos
  unfold climbRest
  apply agrees_peekOperator.bind
  intro op
  cases op with
  | none => exact agrees_pure fun _ hready => hready
  | some op =>
    dsimp only
    split
    · exact agrees_pure fun _ hgoing => hgoing.1
    · apply agrees_next.bind
      intro t
      apply (h.climb (by omega) (by omega) _).bind
      intro right
      apply (agrees_combine op t.pos left right).bind
      intro whole
      exact (h.climbRest (by omega) (by omega) least whole).mono (fun _ hready => hready)
        fun _ _ hready => hready.mono (by omega)

private theorem agrees_atom (hn : 3 * n ≤ fuel + 1) (hn' : 3 * n ≤ fuel' + 1) :
    Agrees (Ready n) (atom (fuel + 1)) (atom (fuel' + 1)) fun _ => Ready (n - 1) := by
  apply agrees_of_pos
  intro hpos
  unfold atom
  apply agrees_start.bind
  intro start
  apply agrees_checkLiteral.bind
  intro isLiteral
  split
  · next hliteral =>
    have hvalue : Agrees (fun ts => Ready n ts ∧ (isLiteral = true → Going n ts)) literal literal
        fun _ => Ready (n - 1) :=
      agrees_literal.mono (fun _ hts => hts.2 hliteral) fun _ _ hready => hready
    apply hvalue.bind
    intro value
    exact agrees_pure fun _ hready => hready
  have hparen : Agrees (fun ts => Ready n ts ∧ (isLiteral = true → Going n ts))
      (check (sym .lparen)) (check (sym .lparen)) fun _ => Ready n :=
    (agrees_look _).mono (fun _ hts => hts.1) fun _ _ hready => hready
  apply hparen.bind
  intro paren
  split
  · apply (agrees_symbol _).bind
    intro _
    apply (agrees_symbol? _).bind
    intro closed
    cases closed with
    | some _ => exact agrees_pure fun _ hready => hready.mono (Nat.sub_le _ _)
    | none =>
      apply (h.climb (n := n - 1) (by omega) (by omega) 0).bind
      intro first
      apply (agrees_symbol? _).bind
      intro closed
      cases closed with
      | some _ =>
        exact agrees_pure fun _ hready =>
          hready.mono (Nat.le_trans (Nat.sub_le _ _) (Nat.sub_le _ _))
      | none =>
        apply (h.moreExprs (n := n - 1 - 1) (by omega) (by omega)).bind
        intro rest
        apply (agrees_symbol _).bind
        intro _
        exact agrees_pure fun _ hready => hready.mono (by omega)
  apply (agrees_look _).bind
  intro bracket
  split
  · apply (agrees_symbol _).bind
    intro _
    apply (h.exprs (by omega) (by omega) _).bind
    intro elems
    apply (agrees_symbol _).bind
    intro _
    exact agrees_pure fun _ hready => hready.mono (by omega)
  apply (agrees_look _).bind
  intro isDefault
  split
  · apply (agrees_keyword _).bind
    intro _
    apply (agrees_symbol _).bind
    intro _
    apply ((typesAgree fuel fuel').type (by omega) (by omega)).bind
    intro t
    apply (agrees_symbol _).bind
    intro _
    exact agrees_pure fun _ hready => hready.mono (by omega)
  apply (agrees_look _).bind
  intro named
  split
  · apply agrees_ident.bind
    rintro ⟨name, pos⟩
    apply (agrees_look _).bind
    intro called
    split
    · apply (agrees_symbol _).bind
      intro _
      apply (h.exprs (by omega) (by omega) _).bind
      intro args
      apply (agrees_symbol _).bind
      intro _
      exact agrees_pure fun _ hready => hready.mono (by omega)
    apply (agrees_look _).bind
    intro initialised
    split
    · apply (agrees_symbol _).bind
      intro _
      apply (h.inits (by omega) (by omega) _).bind
      intro inits
      apply (agrees_symbol _).bind
      intro _
      exact agrees_pure fun _ hready => hready.mono (by omega)
    · exact agrees_pure fun _ hready => hready
  · exact agrees_failUnexpected

private theorem agrees_exprs (hn : 3 * n + 2 ≤ fuel + 1) (hn' : 3 * n + 2 ≤ fuel' + 1)
    (close : Tag) :
    Agrees (Ready n) (exprs (fuel + 1) close) (exprs (fuel' + 1) close) fun _ => Ready n := by
  unfold exprs
  apply (agrees_look close).bind
  intro closed
  split
  · exact agrees_pure fun _ hready => hready
  · apply (h.climb (by omega) (by omega) 0).bind
    intro first
    apply (h.moreExprs (by omega) (by omega)).bind
    intro rest
    exact agrees_pure fun _ hready => hready.mono (by omega)

private theorem agrees_moreExprs (hn : 3 * n ≤ fuel + 1) (hn' : 3 * n ≤ fuel' + 1) :
    Agrees (Ready n) (moreExprs (fuel + 1)) (moreExprs (fuel' + 1)) fun _ => Ready n := by
  apply agrees_of_pos
  intro hpos
  unfold moreExprs
  apply (agrees_symbol? _).bind
  intro comma
  cases comma with
  | none => exact agrees_pure fun _ hready => hready
  | some _ =>
    apply (h.climb (n := n - 1) (by omega) (by omega) 0).bind
    intro e
    apply (h.moreExprs (by omega) (by omega)).bind
    intro rest
    exact agrees_pure fun _ hready => hready.mono (by omega)

private theorem agrees_inits (hn : 3 * n + 1 ≤ fuel + 1) (hn' : 3 * n + 1 ≤ fuel' + 1)
    (close : Tag) :
    Agrees (Ready n) (inits (fuel + 1) close) (inits (fuel' + 1) close) fun _ => Ready n := by
  unfold inits
  apply (agrees_look close).bind
  intro closed
  split
  · exact agrees_pure fun _ hready => hready
  · apply (h.init (by omega) (by omega)).bind
    intro first
    apply (h.moreInits (by omega) (by omega)).bind
    intro rest
    exact agrees_pure fun _ hready => hready.mono (by omega)

private theorem agrees_moreInits (hn : 3 * n ≤ fuel + 1) (hn' : 3 * n ≤ fuel' + 1) :
    Agrees (Ready n) (moreInits (fuel + 1)) (moreInits (fuel' + 1)) fun _ => Ready n := by
  unfold moreInits
  apply (agrees_symbol? _).bind
  intro comma
  cases comma with
  | none => exact agrees_pure fun _ hready => hready
  | some _ =>
    apply (h.init (n := n - 1) (by omega) (by omega)).bind
    intro i
    apply (h.moreInits (by omega) (by omega)).bind
    intro rest
    exact agrees_pure fun _ hready => hready.mono (by omega)

private theorem agrees_init (hn : 3 * n ≤ fuel + 1) (hn' : 3 * n ≤ fuel' + 1) :
    Agrees (Ready n) (init (fuel + 1)) (init (fuel' + 1)) fun _ => Ready (n - 1) := by
  apply agrees_of_pos
  intro hpos
  unfold init
  apply agrees_ident.bind
  rintro ⟨name, pos⟩
  apply (agrees_symbol _).bind
  intro _
  apply (h.climb (by omega) (by omega) 0).bind
  intro e
  exact agrees_pure fun _ hready => hready.mono (by omega)

end Exprs

theorem exprsAgree (fuel fuel' : Nat) : ExprsAgree fuel fuel' := by
  induction fuel generalizing fuel' with
  | zero =>
    exact ⟨fun hn _ => absurd hn (by omega), fun hn _ _ _ => agrees_of_pos (by omega),
      fun hn _ => agrees_of_pos (by omega), fun hn _ => absurd hn (by omega),
      fun hn _ => agrees_of_pos (by omega), fun hn _ => absurd hn (by omega),
      fun hn _ => agrees_of_pos (by omega), fun hn _ => agrees_of_pos (by omega)⟩
  | succ fuel ih =>
    cases fuel' with
    | zero =>
      exact ⟨fun _ hn => absurd hn (by omega), fun _ hn _ _ => agrees_of_pos (by omega),
        fun _ hn => agrees_of_pos (by omega), fun _ hn => absurd hn (by omega),
        fun _ hn => agrees_of_pos (by omega), fun _ hn => absurd hn (by omega),
        fun _ hn => agrees_of_pos (by omega), fun _ hn => agrees_of_pos (by omega)⟩
    | succ fuel' =>
      exact ⟨agrees_climb (ih fuel'), agrees_climbRest (ih fuel'), agrees_atom (ih fuel'),
        agrees_exprs (ih fuel'), agrees_moreExprs (ih fuel'), agrees_inits (ih fuel'),
        agrees_moreInits (ih fuel'), agrees_init (ih fuel')⟩

theorem agrees_expr {fuel fuel' : Nat} (hn : 3 * n + 1 ≤ fuel) (hn' : 3 * n + 1 ≤ fuel') :
    Agrees (Ready n) (expr fuel) (expr fuel') fun _ => Ready (n - 1) :=
  (exprsAgree fuel fuel').climb hn hn' 0

private theorem agrees_optional {α : Type} {p q : Parse α} (s : Symbol)
    (h : Agrees (Ready (n - 1)) p q fun _ => Ready (n - 1)) :
    Agrees (Ready n) (optional (sym s) p) (optional (sym s) q) fun _ => Ready n := by
  unfold optional
  apply (agrees_look _).bind
  intro found
  split
  · apply (agrees_symbol s).bind
    intro _
    apply h.bind
    intro a
    exact agrees_pure fun _ hready => hready.mono (by omega)
  · exact agrees_pure fun _ hready => hready

structure StmtsAgree (fuel fuel' : Nat) : Prop where
  stmt : ∀ {n}, 3 * n + 2 ≤ fuel → 3 * n + 2 ≤ fuel' →
    Agrees (Ready n) (stmt fuel) (stmt fuel') fun _ => Ready (n - 1)
  block : ∀ {n}, 3 * n + 1 ≤ fuel → 3 * n + 1 ≤ fuel' →
    Agrees (Ready n) (block fuel) (block fuel') fun _ => Ready (n - 1)
  stmts : ∀ {n}, 3 * n + 3 ≤ fuel → 3 * n + 3 ≤ fuel' →
    Agrees (Ready n) (stmts fuel) (stmts fuel') fun _ => Ready n

section Stmts

variable {fuel fuel' : Nat} (h : StmtsAgree fuel fuel')

include h

private theorem agrees_stmt (hn : 3 * n + 2 ≤ fuel + 1) (hn' : 3 * n + 2 ≤ fuel' + 1) :
    Agrees (Ready n) (stmt (fuel + 1)) (stmt (fuel' + 1)) fun _ => Ready (n - 1) := by
  apply agrees_of_pos
  intro hpos
  unfold stmt
  apply agrees_start.bind
  intro start
  apply (agrees_look _).bind
  intro declares
  split
  · have htype : Agrees (Ready (n - 1 - 1 - 1)) (type fuel) (type fuel')
        fun _ => Ready (n - 1 - 1 - 1) :=
      ((typesAgree fuel fuel').type (by omega) (by omega)).mono (fun _ hready => hready)
        fun _ _ hready => hready.mono (by omega)
    have hexpr : Agrees (Ready (n - 1 - 1 - 1)) (expr fuel) (expr fuel')
        fun _ => Ready (n - 1 - 1 - 1) :=
      (agrees_expr (by omega) (by omega)).mono (fun _ hready => hready)
        fun _ _ hready => hready.mono (by omega)
    apply (agrees_keyword _).bind
    intro _
    apply agrees_ident.bind
    rintro ⟨name, pos⟩
    apply (agrees_optional .colon htype).bind
    intro t
    cases t with
    | some t =>
      apply (agrees_optional .equal hexpr).bind
      intro init
      apply (agrees_symbol _).bind
      intro _
      exact agrees_pure fun _ hready => hready.mono (by omega)
    | none =>
      apply (agrees_symbol _).bind
      intro _
      apply hexpr.bind
      intro init
      apply (agrees_symbol _).bind
      intro _
      exact agrees_pure fun _ hready => hready.mono (by omega)
  apply (agrees_look _).bind
  intro conditional
  split
  · apply (agrees_keyword _).bind
    intro _
    apply (agrees_symbol _).bind
    intro _
    apply (agrees_expr (by omega) (by omega)).bind
    intro test
    apply (agrees_symbol _).bind
    intro _
    apply (h.stmt (by omega) (by omega)).bind
    intro yes
    apply (agrees_look _).bind
    intro hasElse
    split
    · apply (agrees_keyword _).bind
      intro _
      apply (h.stmt (by omega) (by omega)).bind
      intro no
      exact agrees_pure fun _ hready => hready.mono (by omega)
    · exact agrees_pure fun _ hready => hready.mono (by omega)
  apply (agrees_look _).bind
  intro loops
  split
  · apply (agrees_keyword _).bind
    intro _
    apply (agrees_symbol _).bind
    intro _
    apply (agrees_expr (by omega) (by omega)).bind
    intro test
    apply (agrees_symbol _).bind
    intro _
    apply (h.stmt (by omega) (by omega)).bind
    intro body
    exact agrees_pure fun _ hready => hready.mono (by omega)
  apply (agrees_look _).bind
  intro opens
  split
  · exact h.block (by omega) (by omega)
  apply (agrees_look _).bind
  intro returns
  split
  · apply (agrees_keyword _).bind
    intro _
    apply (agrees_look _).bind
    intro ended
    split
    · apply (agrees_symbol _).bind
      intro _
      exact agrees_pure fun _ hready => hready.mono (by omega)
    · apply (agrees_expr (by omega) (by omega)).bind
      intro e
      apply (agrees_symbol _).bind
      intro _
      exact agrees_pure fun _ hready => hready.mono (by omega)
  · apply (agrees_expr (by omega) (by omega)).bind
    intro e
    apply (agrees_symbol _).bind
    intro _
    exact agrees_pure fun _ hready => hready.mono (by omega)

private theorem agrees_block (hn : 3 * n + 1 ≤ fuel + 1) (hn' : 3 * n + 1 ≤ fuel' + 1) :
    Agrees (Ready n) (block (fuel + 1)) (block (fuel' + 1)) fun _ => Ready (n - 1) := by
  apply agrees_of_pos
  intro hpos
  unfold block
  apply (agrees_symbol _).bind
  intro opening
  apply (h.stmts (by omega) (by omega)).bind
  intro body
  apply (agrees_symbol _).bind
  intro _
  exact agrees_pure fun _ hready => hready.mono (by omega)

private theorem agrees_stmts (hn : 3 * n + 3 ≤ fuel + 1) (hn' : 3 * n + 3 ≤ fuel' + 1) :
    Agrees (Ready n) (stmts (fuel + 1)) (stmts (fuel' + 1)) fun _ => Ready n := by
  apply agrees_of_pos
  intro hpos
  unfold stmts
  apply (agrees_look _).bind
  intro closed
  split
  · exact agrees_pure fun _ hready => hready
  · apply (h.stmt (by omega) (by omega)).bind
    intro s
    apply (h.stmts (by omega) (by omega)).bind
    intro rest
    exact agrees_pure fun _ hready => hready.mono (by omega)

end Stmts

theorem stmtsAgree (fuel fuel' : Nat) : StmtsAgree fuel fuel' := by
  induction fuel generalizing fuel' with
  | zero =>
    exact ⟨fun hn _ => absurd hn (by omega), fun hn _ => absurd hn (by omega),
      fun hn _ => absurd hn (by omega)⟩
  | succ fuel ih =>
    cases fuel' with
    | zero =>
      exact ⟨fun _ hn => absurd hn (by omega), fun _ hn => absurd hn (by omega),
        fun _ hn => absurd hn (by omega)⟩
    | succ fuel' =>
      exact ⟨agrees_stmt (ih fuel'), agrees_block (ih fuel'), agrees_stmts (ih fuel')⟩

section Modules

variable {fuel fuel' : Nat}

theorem agrees_definition (hn : 3 * n ≤ fuel) (hn' : 3 * n ≤ fuel') :
    Agrees (Ready n) (definition fuel) (definition fuel') fun _ => Ready (n - 1) := by
  apply agrees_of_pos
  intro hpos
  unfold definition
  apply (agrees_keyword _).bind
  intro start
  apply (agrees_keyword? _).bind
  intro isObject
  cases isObject with
  | some _ =>
    apply agrees_ident.bind
    rintro ⟨name, pos⟩
    apply (agrees_symbol _).bind
    intro _
    apply (agrees_items (n := n - 1 - 1 - 1 - 1) (by omega) (by omega) _).bind
    intro fields
    apply (agrees_symbol _).bind
    intro _
    apply (agrees_distinct _).bind
    intro _
    exact agrees_pure fun _ hready => hready.mono (by omega)
  | none =>
    apply (agrees_keyword? _).bind
    intro isFunc
    cases isFunc with
    | none => exact agrees_failUnexpected
    | some _ =>
      have htype : Agrees (Ready (n - 1 - 1 - 1 - 1 - 1 - 1)) (type fuel) (type fuel')
          fun _ => Ready (n - 1 - 1 - 1 - 1 - 1 - 1) :=
        ((typesAgree fuel fuel').type (by omega) (by omega)).mono (fun _ hready => hready)
          fun _ _ hready => hready.mono (by omega)
      apply agrees_ident.bind
      rintro ⟨name, pos⟩
      apply (agrees_symbol _).bind
      intro _
      apply (agrees_items (n := n - 1 - 1 - 1 - 1) (by omega) (by omega) _).bind
      intro params
      apply (agrees_symbol _).bind
      intro _
      apply (agrees_distinct _).bind
      intro _
      apply (agrees_optional .colon htype).bind
      intro ret
      apply ((stmtsAgree fuel fuel').block (by omega) (by omega)).bind
      intro body
      exact agrees_pure fun _ hready => hready.mono (by omega)

private def Finished (tokens : List Token) : Prop := ∃ t, tokens = [t] ∧ t.tag = .eof

private theorem finished_of_tag {ts : List Token} (hready : Ready n ts)
    (hhead : ∀ t ∈ ts.head?, t.tag = .eof) : Finished ts := by
  obtain ⟨⟨before, last, rfl, hlast, hbefore⟩, -⟩ := hready
  cases before with
  | nil => exact ⟨last, rfl, Token.tag_eq_eof_iff.mpr hlast⟩
  | cons t before =>
    have htag : t.tag = .eof := hhead t (by simp)
    exact absurd (Token.tag_eq_eof_iff.mp htag) (hbefore t (by simp))

theorem agrees_parts (hn : 3 * n + 3 ≤ fuel) (hn' : 3 * n + 3 ≤ fuel') :
    Agrees (Ready n) (parts fuel) (parts fuel') fun _ => Finished := by
  induction fuel generalizing n fuel' with
  | zero => omega
  | succ fuel ih =>
    cases fuel' with
    | zero => omega
    | succ fuel' =>
      apply agrees_of_pos
      intro hpos
      unfold parts
      apply (agrees_found _).bind
      intro ended
      cases ended with
      | true =>
        apply agrees_pure
        intro ts hts
        exact finished_of_tag hts.1 (hts.2 rfl)
      | false =>
        have hdef : Agrees (fun ts => Ready n ts ∧ (false = true → ∀ t ∈ ts.head?, t.tag = .eof))
            (check (kw .kDef)) (check (kw .kDef)) fun _ => Ready n :=
          (agrees_look _).mono (fun _ hts => hts.1) fun _ _ hready => hready
        apply hdef.bind
        intro defining
        split
        · apply (agrees_definition (by omega) (by omega)).bind
          intro d
          apply (ih (by omega) (by omega)).bind
          rintro ⟨defs, stmts⟩
          exact agrees_pure fun _ hend => hend
        · apply ((stmtsAgree fuel fuel').stmt (by omega) (by omega)).bind
          intro s
          apply (ih (by omega) (by omega)).bind
          rintro ⟨defs, stmts⟩
          exact agrees_pure fun _ hend => hend

private theorem agrees_end : Agrees Finished (expect .eof) (expect .eof) fun _ _ => True := by
  have hhead : ∀ ts, Finished ts → ∃ t rest, ts = t :: rest := by
    rintro ts ⟨t, rfl, -⟩
    exact ⟨t, [], rfl⟩
  have htaken : Agrees Finished (take? .eof) (take? .eof) fun t _ => t.isSome = true := by
    apply (agrees_check hhead .eof).bind
    intro found
    cases found with
    | false =>
      -- what is left has the tag
      rintro c d - ⟨⟨t, hplain, htag⟩, hfound⟩
      have hdiffers := hfound t (by rw [hplain]; rfl)
      simp [htag] at hdiffers
    | true =>
      have hnext : Agrees (fun ts => Finished ts ∧ ∀ t ∈ ts.head?, true = (t.tag == .eof)) next
          next fun _ _ => True := by
        apply agrees_take.mono _ fun _ _ h => h
        rintro ts ⟨⟨t, rfl, -⟩, -⟩
        exact ⟨t, [], rfl, trivial⟩
      apply hnext.bind
      intro t
      exact agrees_pure fun _ _ => rfl
  apply htaken.bind
  intro t
  cases t with
  | none => exact fun _ _ _ hnone => nomatch hnone
  | some t => exact agrees_pure fun _ _ => trivial

theorem agrees_module (hn : 3 * n + 3 ≤ fuel) (hn' : 3 * n + 3 ≤ fuel') (name : String) :
    Agrees (Ready n) (module fuel name) (module fuel' name) fun _ _ => True := by
  unfold module
  apply (agrees_parts hn hn').bind
  rintro ⟨defs, stmts⟩
  apply agrees_end.bind
  intro _
  exact agrees_pure fun _ h => h

end Modules

end Grammar

theorem EndsOnce.plain {tokens : List Token} (h : EndsOnce tokens) :
    EndsOnce (plainTokens tokens) := by
  obtain ⟨before, last, rfl, hlast, hbefore⟩ := h
  refine ⟨plainTokens before, last, ?_, hlast, fun t ht => hbefore t (List.mem_filter.mp ht).1⟩
  simp [plainTokens, hlast, TokenKind.isComment]

theorem plainTokens_plainTokens (tokens : List Token) :
    plainTokens (plainTokens tokens) = plainTokens tokens := by
  simp [plainTokens]

theorem Cursor.ofTokens_of_endsOnce {tokens : List Token} (h : EndsOnce tokens) :
    Cursor.ofTokens tokens = .ok ⟨tokens, []⟩ := by
  obtain ⟨before, last, rfl, hlast, hbefore⟩ := h
  have htag : last.tag = .eof := Token.tag_eq_eof_iff.mpr hlast
  have hothers : ∀ t ∈ before, ¬ (t.tag == .eof) = true := by
    intro t ht heof
    exact hbefore t ht (Token.tag_eq_eof_iff.mp (beq_iff_eq.mp heof))
  have hcount : ((before ++ [last]).filter fun t => t.tag == .eof).length = 1 := by
    rw [List.filter_append, List.filter_eq_nil_iff.mpr hothers]
    simp [htag]
  unfold Cursor.ofTokens
  rw [if_neg (by simp [htag]), hcount]
  rfl

/-- Comments in a stream change neither the module that it spells nor what is wrong with it. -/
theorem Module.ofTokens_plain {tokens : List Token} (h : EndsOnce tokens) (name : String) :
    Module.ofTokens name (plainTokens tokens) = Module.ofTokens name tokens := by
  have hlength : (plainTokens tokens).length ≤ tokens.length := List.length_filter_le _ _
  have halike : Cursor.Alike ⟨plainTokens tokens, []⟩ ⟨tokens, []⟩ :=
    ⟨plainTokens_plainTokens tokens, rfl⟩
  have hready : Parse.Ready (plainTokens tokens).length
      (Cursor.plain ⟨plainTokens tokens, []⟩) := by
    show Parse.Ready _ (plainTokens (plainTokens tokens))
    rw [plainTokens_plainTokens]
    exact ⟨h.plain, Nat.le_refl _⟩
  have hagrees : Parse.Agrees (Parse.Ready (plainTokens tokens).length)
      (Grammar.module (Grammar.fuelFor (plainTokens tokens).length) name)
      (Grammar.module (Grammar.fuelFor tokens.length) name) fun _ _ => True :=
    Grammar.agrees_module (by unfold Grammar.fuelFor; omega) (by unfold Grammar.fuelFor; omega) name
  rw [Module.ofTokens, Module.ofTokens, Cursor.ofTokens_of_endsOnce h,
    Cursor.ofTokens_of_endsOnce h.plain]
  simp only [Cursor.parseModule]
  rcases hagrees _ _ halike hready with ⟨m, c, d, hc, hd, -, -⟩ | ⟨e, c, d, hc, hd⟩
  · rw [hc, hd]
  · rw [hc, hd]

theorem endsOnce_of_tokenize {source : String} {keepComments : Bool} {tokens : List Token}
    (h : tokenize source keepComments = .ok tokens) : EndsOnce tokens := by
  obtain ⟨ts, rfl, hcut⟩ := exists_cut_of_tokenize h
  exact ⟨ts, _, rfl, rfl, hcut.ne_eof⟩

private theorem plainTokens_filterMap (found : List (Pos × Lexeme)) :
    plainTokens (found.filterMap (Lexeme.token? true)) =
      found.filterMap (Lexeme.token? false) := by
  induction found with
  | nil => rfl
  | cons place found ih =>
    obtain ⟨pos, chars, kind⟩ := place
    cases kind with
    | none => exact ih
    | some kind =>
      by_cases hcomment : kind.isComment = true
      · have hkept : Lexeme.token? true (pos, ⟨chars, some kind⟩) = some ⟨kind, pos⟩ := by
          simp [Lexeme.token?]
        have hdropped : Lexeme.token? false (pos, ⟨chars, some kind⟩) = none := by
          simp [Lexeme.token?, hcomment]
        rw [List.filterMap_cons_some hkept, List.filterMap_cons_none hdropped, ← ih]
        simp [plainTokens, hcomment]
      · have hboth : ∀ keep, Lexeme.token? keep (pos, ⟨chars, some kind⟩) = some ⟨kind, pos⟩ := by
          simp [Lexeme.token?, hcomment]
        rw [List.filterMap_cons_some (hboth true), List.filterMap_cons_some (hboth false), ← ih]
        simp [plainTokens, hcomment]

/-- Keeping comments makes no other difference to the tokens. -/
theorem tokenize_plain (source : String) :
    tokenize source false = (tokenize source true).map plainTokens := by
  unfold tokenize
  cases lexemes source with
  | error d => rfl
  | ok found =>
    show Except.ok _ = Except.ok (plainTokens _)
    rw [← plainTokens_filterMap found]
    simp [plainTokens, TokenKind.isComment]

/-- Comments never change the meaning of a text: whether they are kept or not, lexing fails with the
same diagnostic, or gives the same tokens apart from comments, and the module that these spell or
the diagnostic of the grammar, with its expected tokens, is the same. -/
theorem comments_ignored (name source : String) :
    tokenize source false =
        (tokenize source true).map (List.filter fun t => !t.kind.isComment) ∧
      (tokenize source false).map (Module.ofTokens name) =
        (tokenize source true).map (Module.ofTokens name) := by
  refine ⟨tokenize_plain source, ?_⟩
  rw [tokenize_plain]
  cases htokens : tokenize source true with
  | error d => rfl
  | ok tokens =>
    show Except.ok (Module.ofTokens name (plainTokens tokens)) = .ok (Module.ofTokens name tokens)
    rw [Module.ofTokens_plain (endsOnce_of_tokenize htokens)]

end EdeLang
