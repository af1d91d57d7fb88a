import EdeLang.Proofs.Syntax.Lookahead

/-!
# Two streams that part

Reading goes by the answers to what it asks for and by the kinds of the tokens that it takes. On two
streams with the same kinds of tokens up to some token, the rules of the grammar go the same way
until one of the runs asks for a tag that only its token has. So the tags that were asked for where
reading stops are exactly those that would have been taken there.
-/

namespace EdeLang

def Stop.isUnexpected : Stop → Bool
  | .diagnostic d => d.isUnexpected
  | _ => false

namespace Cursor

/-- Tokens were taken only, and no tag was forgotten if none was. -/
structure Leads (c c' : Cursor) : Prop where
  tokens_le : c'.tokens <:+ c.tokens
  expected_le : ∀ t rest, c.plain = t :: rest → c'.plain = t :: rest →
    ∀ tag ∈ c.expected, tag ∈ c'.expected

theorem Leads.refl (c : Cursor) : c.Leads c := ⟨List.suffix_refl _, fun _ _ _ _ _ h => h⟩

theorem Leads.plain_le {c c' : Cursor} (h : c.Leads c') : c'.plain <:+ c.plain :=
  h.tokens_le.filter _

theorem Leads.trans {c c' c'' : Cursor} (h : c.Leads c') (h' : c'.Leads c'') : c.Leads c'' := by
  refine ⟨h'.tokens_le.trans h.tokens_le, fun t rest hfirst hlast tag htag => ?_⟩
  -- no token was taken on the way either
  have hmiddle : c'.plain = t :: rest := by
    have hle := h.plain_le
    have hle' := h'.plain_le
    rw [hfirst] at hle
    rw [hlast] at hle'
    exact hle.eq_of_length_le hle'.length_le
  exact h'.expected_le t rest hmiddle hlast tag (h.expected_le t rest hfirst hmiddle tag htag)

theorem leads_skip (c : Cursor) : c.Leads c.skip :=
  ⟨List.dropWhile_suffix _, fun _ _ _ _ _ h => h⟩

theorem leads_asked (c : Cursor) (tag : Tag) : c.Leads (c.asked tag) :=
  ⟨List.dropWhile_suffix _, fun _ _ _ _ _ h => List.mem_cons_of_mem _ h⟩

theorem leads_taken (c : Cursor) : c.Leads c.taken := by
  refine ⟨(List.tail_suffix _).trans (List.dropWhile_suffix _), fun t rest hplain htaken => ?_⟩
  rw [plain_taken hplain] at htaken
  exact absurd (congrArg List.length htaken) (by simp)

def after {α : Type} : EStateM.Result Stop Cursor α → Cursor
  | .ok _ c => c
  | .error _ c => c

theorem after_peek (c : Cursor) : after (peek c) = c.skip := by
  unfold peek
  split <;> rfl

theorem after_check (c : Cursor) (tag : Tag) : after (check tag c) = c.asked tag := by
  have hask : ask tag c = .ok () ⟨c.tokens, tag :: c.expected⟩ := rfl
  have hpeek : after (peek ⟨c.tokens, tag :: c.expected⟩) = c.asked tag := after_peek _
  unfold check
  rw [Parse.bind_of_ok hask]
  cases hr : peek ⟨c.tokens, tag :: c.expected⟩ with
  | ok t c' =>
    rw [hr] at hpeek
    rw [Parse.bind_of_ok hr]
    exact hpeek
  | error stop c' =>
    rw [hr] at hpeek
    rw [Parse.bind_of_error hr]
    exact hpeek

theorem after_next (c : Cursor) : after (next c) = c.taken := by
  unfold next taken
  split
  · next t more htokens => rw [htokens]; rfl
  · next htokens => rw [htokens]; rfl

theorem after_failUnexpected {α : Type} (c : Cursor) :
    after ((failUnexpected : Parse α) c) = c.skip := by
  cases hplain : c.plain with
  | cons t rest => rw [failUnexpected_of_plain hplain]; rfl
  | nil =>
    have hpeek : peek c = .error .pastEnd c.skip := by
      unfold peek
      split
      · next t more htokens =>
        rw [plain_of_skip_tokens htokens] at hplain
        cases hplain
      · rfl
    unfold failUnexpected unexpected
    rw [Parse.bind_of_error (Parse.bind_of_error hpeek)]
    rfl

end Cursor

/-- A token of one stream with what follows, and a token of another. -/
structure Fork where
  left : Token
  leftRest : List Token
  right : Token
  rightRest : List Token

namespace Fork

open Cursor

variable {k : Fork} {c c' d d' : Cursor} {tag : Tag}

/-- Up to the fork the cursors have tokens of the same kinds left, and the same tags were asked
for. -/
structure Abreast (k : Fork) (c d : Cursor) : Prop where
  exists_before : ∃ before before', c.plain = before ++ k.left :: k.leftRest ∧
    d.plain = before' ++ k.right :: k.rightRest ∧ before.map Token.kind = before'.map Token.kind
  expected_eq : c.expected = d.expected

/-- The token was taken, or this tag was asked for in front of it. -/
def Past (t : Token) (rest : List Token) (tag : Tag) (c : Cursor) : Prop :=
  c.plain <:+ rest ∨ c.plain = t :: rest ∧ tag ∈ c.expected

theorem Past.mem_expected {t : Token} {rest : List Token} (h : Past t rest tag c)
    (hplain : c.plain = t :: rest) : tag ∈ c.expected := by
  rcases h with hpast | ⟨-, hasked⟩
  · rw [hplain] at hpast
    exact absurd hpast.length_le (by simp)
  · exact hasked

theorem Past.leads {t : Token} {rest : List Token} (h : Past t rest tag c) (hc : c.Leads c') :
    Past t rest tag c' := by
  have hle := hc.plain_le
  rcases h with hpast | ⟨hplain, hasked⟩
  · exact .inl (hle.trans hpast)
  · rw [hplain] at hle
    rcases List.suffix_cons_iff.mp hle with heq | hpast
    · exact .inr ⟨heq, hc.expected_le t rest hplain heq tag hasked⟩
    · exact .inl hpast

/-- The runs have gone different ways: both are past the fork, or the tag of one of the tokens was
asked for there. -/
def Parted (k : Fork) (c d : Cursor) : Prop :=
  ∃ tag, (tag = k.left.tag ∨ tag = k.right.tag) ∧ Past k.left k.leftRest tag c ∧
    Past k.right k.rightRest tag d

theorem Parted.leads (h : k.Parted c d) (hc : c.Leads c') (hd : d.Leads d') : k.Parted c' d' := by
  obtain ⟨tag, htag, hleft, hright⟩ := h
  exact ⟨tag, htag, hleft.leads hc, hright.leads hd⟩

/-- Both runs go on with alike results, or both stop for alike reasons, or they have parted, or one
of them ran out of fuel. -/
inductive Meets {α γ : Type} (k : Fork) (g : α → γ) :
    EStateM.Result Stop Cursor α → EStateM.Result Stop Cursor α → Prop
  | ok {a b : α} {c d : Cursor} (hval : g a = g b) (h : k.Abreast c d) :
    Meets k g (.ok a c) (.ok b d)
  | error {s s' : Stop} {c d : Cursor} (hstop : s.isUnexpected = s'.isUnexpected)
      (h : k.Abreast c d) : Meets k g (.error s c) (.error s' d)
  | parted {r r' : EStateM.Result Stop Cursor α} (h : k.Parted (after r) (after r')) :
    Meets k g r r'
  | spent_left {r : EStateM.Result Stop Cursor α} {c : Cursor} : Meets k g (.error .pastEnd c) r
  | spent_right {r : EStateM.Result Stop Cursor α} {c : Cursor} : Meets k g r (.error .pastEnd c)

theorem Abreast.next_cases (h : k.Abreast c d) :
    (c.plain = k.left :: k.leftRest ∧ d.plain = k.right :: k.rightRest) ∨
    ∃ t u rest rest', c.plain = t :: rest ∧ d.plain = u :: rest' ∧ t.kind = u.kind ∧
      ∃ before before', rest = before ++ k.left :: k.leftRest ∧
        rest' = before' ++ k.right :: k.rightRest ∧
        before.map Token.kind = before'.map Token.kind := by
  obtain ⟨before, before', hc, hd, hkinds⟩ := h.exists_before
  cases before with
  | nil =>
    cases before' with
    | nil => exact .inl ⟨hc, hd⟩
    | cons u before' => simp at hkinds
  | cons t before =>
    cases before' with
    | nil => simp at hkinds
    | cons u before' =>
      obtain ⟨hkind, hkinds⟩ : t.kind = u.kind ∧ before.map Token.kind = before'.map Token.kind := by
        simpa using hkinds
      exact .inr ⟨t, u, _, _, hc, hd, hkind, before, before', rfl, rfl, hkinds⟩

theorem Abreast.exists_next (h : k.Abreast c d) :
    ∃ t rest u rest', c.plain = t :: rest ∧ d.plain = u :: rest' := by
  rcases h.next_cases with ⟨hc, hd⟩ | ⟨t, u, rest, rest', hc, hd, -⟩
  · exact ⟨_, _, _, _, hc, hd⟩
  · exact ⟨t, rest, u, rest', hc, hd⟩

/-- Both runs reach the fork together. -/
theorem Abreast.right_of_left (h : k.Abreast c d) (hplain : c.plain = k.left :: k.leftRest) :
    d.plain = k.right :: k.rightRest := by
  obtain ⟨before, before', hbefore, hbefore', hkinds⟩ := h.exists_before
  obtain rfl : before = [] := by
    rw [hplain] at hbefore
    simpa using congrArg List.length hbefore
  obtain rfl : before' = [] := by simpa using hkinds.symm
  exact hbefore'

theorem Abreast.skip (h : k.Abreast c d) : k.Abreast c.skip d.skip := by
  obtain ⟨before, before', hleft, hright, hkinds⟩ := h.exists_before
  exact ⟨⟨before, before', c.plain_skip.trans hleft, d.plain_skip.trans hright, hkinds⟩,
    h.expected_eq⟩

theorem Abreast.asked (h : k.Abreast c d) (tag : Tag) :
    k.Abreast (c.asked tag) (d.asked tag) :=
  ⟨h.skip.exists_before, congrArg (tag :: ·) h.expected_eq⟩

end Fork

namespace Parse

open Cursor Fork

variable {α β γ δ : Type} {g : α → γ} {g' : β → δ} {p q : Parse α} {f f' : α → Parse β}

/-- On streams that part, both parsers go the same way up to the fork, and give results that agree
in what is read off them. -/
structure Parallel (g : α → γ) (p q : Parse α) : Prop where
  left : ∀ c : Cursor, c.Leads (after (p c))
  right : ∀ d : Cursor, d.Leads (after (q d))
  meets : ∀ (k : Fork) (c d : Cursor), k.Abreast c d → k.Meets g (p c) (q d)

private theorem leads_bind (hp : ∀ c : Cursor, c.Leads (after (p c)))
    (hf : ∀ a, ∀ c : Cursor, c.Leads (after (f a c))) (c : Cursor) :
    c.Leads (after ((p >>= f) c)) := by
  have hfirst := hp c
  cases hpc : p c with
  | ok a c' =>
    rw [hpc] at hfirst
    rw [bind_of_ok hpc]
    exact hfirst.trans (hf a c')
  | error stop c' =>
    rw [hpc] at hfirst
    rw [bind_of_error hpc]
    exact hfirst

private theorem after_bind (hf : ∀ a, ∀ c : Cursor, c.Leads (after (f a c))) (c : Cursor) :
    (after (p c)).Leads (after ((p >>= f) c)) := by
  cases hpc : p c with
  | ok a c' =>
    rw [bind_of_ok hpc]
    exact hf a c'
  | error stop c' =>
    rw [bind_of_error hpc]
    exact .refl c'

theorem Parallel.bind (hp : Parallel g p q)
    (hf : ∀ a b, g a = g b → Parallel g' (f a) (f' b)) : Parallel g' (p >>= f) (q >>= f') := by
  have hleft : ∀ a, ∀ c : Cursor, c.Leads (after (f a c)) := fun a => (hf a a rfl).left
  have hright : ∀ b, ∀ d : Cursor, d.Leads (after (f' b d)) := fun b => (hf b b rfl).right
  refine ⟨leads_bind hp.left hleft, leads_bind hp.right hright, fun k c d hcd => ?_⟩
  have hmeets := hp.meets k c d hcd
  generalize hr : p c = r at hmeets
  generalize hr' : q d = r' at hmeets
  cases hmeets with
  | ok hval hcd' =>
    rw [bind_of_ok hr, bind_of_ok hr']
    exact (hf _ _ hval).meets k _ _ hcd'
  | error hstop hcd' =>
    rw [bind_of_error hr, bind_of_error hr']
    exact .error hstop hcd'
  | parted hparted =>
    rw [← hr, ← hr'] at hparted
    exact .parted (hparted.leads (after_bind hleft c) (after_bind hright d))
  | spent_left =>
    rw [bind_of_error hr]
    exact .spent_left
  | spent_right =>
    rw [bind_of_error hr']
    exact .spent_right

theorem Parallel.bind_option {p q : Parse (Option α)} {f f' : Option α → Parse β}
    (hp : Parallel (Option.map g) p q) (hnone : Parallel g' (f none) (f' none))
    (hsome : ∀ a b, g a = g b → Parallel g' (f (some a)) (f' (some b))) :
    Parallel g' (p >>= f) (q >>= f') := by
  apply hp.bind
  intro a b hval
  cases a with
  | none =>
    cases b with
    | none => exact hnone
    | some b => simp at hval
  | some a =>
    cases b with
    | none => simp at hval
    | some b => exact hsome a b (by simpa using hval)

theorem parallel_pure {a b : α} (h : g a = g b) : Parallel g (pure a : Parse α) (pure b) :=
  ⟨fun c => .refl c, fun d => .refl d, fun _ _ _ hcd => .ok h hcd⟩

theorem parallel_throw {s s' : Stop} (h : s.isUnexpected = s'.isUnexpected) :
    Parallel g (throw s : Parse α) (throw s') :=
  ⟨fun c => .refl c, fun d => .refl d, fun _ _ _ hcd => .error h hcd⟩

theorem parallel_pastEnd : Parallel g (throw .pastEnd : Parse α) (throw .pastEnd) :=
  parallel_throw rfl

theorem Parallel.spent_left (h : Parallel g p q) : Parallel g (throw .pastEnd) q :=
  ⟨fun c => .refl c, h.right, fun _ _ _ _ => .spent_left⟩

theorem Parallel.spent_right (h : Parallel g p q) : Parallel g p (throw .pastEnd) :=
  ⟨h.left, fun d => .refl d, fun _ _ _ _ => .spent_right⟩

theorem parallel_fail {d d' : Diagnostic} (h : d.isUnexpected = d'.isUnexpected) :
    Parallel g (fail d : Parse α) (fail d') := parallel_throw h

theorem parallel_peek : Parallel (fun _ => ()) peek peek := by
  have hleads : ∀ c : Cursor, c.Leads (after (peek c)) := by
    intro c
    rw [after_peek]
    exact leads_skip c
  refine ⟨hleads, hleads, fun k c d hcd => ?_⟩
  obtain ⟨t, rest, u, rest', hc, hd⟩ := hcd.exists_next
  rw [peek_of_plain hc, peek_of_plain hd]
  exact .ok rfl hcd.skip

theorem parallel_failUnexpected : Parallel g (failUnexpected : Parse α) failUnexpected := by
  have hleads : ∀ c : Cursor, c.Leads (after ((failUnexpected : Parse α) c)) := by
    intro c
    rw [after_failUnexpected]
    exact leads_skip c
  refine ⟨hleads, hleads, fun k c d hcd => ?_⟩
  obtain ⟨t, rest, u, rest', hc, hd⟩ := hcd.exists_next
  rw [failUnexpected_of_plain hc, failUnexpected_of_plain hd]
  exact .error rfl hcd.skip

/-- Different answers at the fork tell the tokens apart: one of them has the tag. -/
theorem parallel_check (tag : Tag) : Parallel id (check tag) (check tag) := by
  have hleads : ∀ c : Cursor, c.Leads (after (check tag c)) := by
    intro c
    rw [after_check]
    exact leads_asked c tag
  refine ⟨hleads, hleads, fun k c d hcd => ?_⟩
  have hasked := hcd.asked tag
  rcases hcd.next_cases with ⟨hc, hd⟩ | ⟨t, u, rest, rest', hc, hd, hkind, -⟩
  · rw [check_of_plain hc, check_of_plain hd]
    by_cases hsame : (k.left.tag == tag) = (k.right.tag == tag)
    · exact .ok hsame hasked
    · have htag : tag = k.left.tag ∨ tag = k.right.tag := by
        by_cases hleft : k.left.tag = tag
        · exact .inl hleft.symm
        · by_cases hright : k.right.tag = tag
          · exact .inr hright.symm
          · simp [beq_eq_false_iff_ne.mpr hleft, beq_eq_false_iff_ne.mpr hright] at hsame
      refine .parted ⟨tag, htag, .inr ⟨(plain_asked c tag).trans hc, ?_⟩,
        .inr ⟨(plain_asked d tag).trans hd, ?_⟩⟩
      · exact List.mem_cons_self
      · exact List.mem_cons_self
  · rw [check_of_plain hc, check_of_plain hd]
    have htag : t.tag = u.tag := congrArg TokenKind.tag hkind
    exact .ok (congrArg (· == tag) htag) hasked

theorem parallel_next : Parallel Token.kind next next := by
  have hleads : ∀ c : Cursor, c.Leads (after (next c)) := by
    intro c
    rw [after_next]
    exact leads_taken c
  refine ⟨hleads, hleads, fun k c d hcd => ?_⟩
  rcases hcd.next_cases with ⟨hc, hd⟩ | ⟨t, u, rest, rest', hc, hd, hkind, hrest⟩
  · rw [next_of_plain hc, next_of_plain hd]
    exact .parted ⟨k.left.tag, .inl rfl, .inl ⟨[], plain_taken hc⟩, .inl ⟨[], plain_taken hd⟩⟩
  · rw [next_of_plain hc, next_of_plain hd]
    obtain ⟨before, before', hleft, hright, hkinds⟩ := hrest
    refine .ok hkind ⟨⟨before, before', ?_, ?_, hkinds⟩, rfl⟩
    · exact (plain_taken hc).trans hleft
    · exact (plain_taken hd).trans hright

theorem parallel_if {tag : Tag} {yes yes' no no' : Parse α} (hyes : Parallel g yes yes')
    (hno : Parallel g no no') : Parallel g (do if ← check tag then yes else no)
      (do if ← check tag then yes' else no') := by
  apply (parallel_check tag).bind
  rintro found _ rfl
  cases found with
  | true => exact hyes
  | false => exact hno

theorem parallel_take? (tag : Tag) :
    Parallel (Option.map Token.kind) (take? tag) (take? tag) := by
  apply parallel_if
  · apply parallel_next.bind
    intro t u hkind
    exact parallel_pure (congrArg some hkind)
  · exact parallel_pure rfl

theorem parallel_expect (tag : Tag) : Parallel Token.kind (expect tag) (expect tag) := by
  apply (parallel_take? tag).bind_option
  · exact parallel_failUnexpected
  · intro t u hkind
    exact parallel_pure hkind

end Parse

def Expr.isIdent : Expr → Bool
  | .ident _ _ => true
  | _ => false

namespace Grammar

open Cursor Parse

/-- Nothing of a result matters to the rules that follow. -/
abbrev Alongside {α : Type} (p q : Parse α) : Prop := Parallel (fun _ => ()) p q

theorem parallel_ident : Parallel Prod.fst ident ident := by
  apply (parallel_expect _).bind
  intro t u hkind
  rw [hkind]
  cases u.kind with
  | ident name => exact parallel_pure rfl
  | _ => exact parallel_failUnexpected

theorem duplicate?_isSome {items items' : List (Item TypeExpr)}
    (h : items.map Item.name = items'.map Item.name) (seen : List String) :
    (duplicate? seen items).isSome = (duplicate? seen items').isSome := by
  induction items generalizing items' seen with
  | nil =>
    cases items' with
    | nil => rfl
    | cons item' items' => simp at h
  | cons item items ih =>
    cases items' with
    | nil => simp at h
    | cons item' items' =>
      obtain ⟨hname, hnames⟩ : item.name = item'.name ∧
          items.map Item.name = items'.map Item.name := by
        simpa using h
      unfold duplicate?
      rw [hname]
      split
      · rfl
      · exact ih hnames _

theorem parallel_distinct {items items' : List (Item TypeExpr)}
    (h : items.map Item.name = items'.map Item.name) :
    Alongside (distinct items) (distinct items') := by
  have hboth := duplicate?_isSome h []
  unfold distinct
  cases hleft : duplicate? [] items with
  | none =>
    cases hright : duplicate? [] items' with
    | none => exact parallel_pure rfl
    | some item' => simp [hleft, hright] at hboth
  | some item =>
    cases hright : duplicate? [] items' with
    | none => simp [hleft, hright] at hboth
    | some item' => exact parallel_fail rfl

structure TypesParallel (fuel fuel' : Nat) : Prop where
  type : Alongside (type fuel) (type fuel')
  moreTypes : Alongside (moreTypes fuel) (moreTypes fuel')
  item : Parallel Item.name (item fuel) (item fuel')
  moreItems : Parallel (List.map Item.name) (moreItems fuel) (moreItems fuel')

section Types

variable {fuel fuel' : Nat} (h : TypesParallel fuel fuel')

include h

private theorem parallel_type : Alongside (type (fuel + 1)) (type (fuel' + 1)) := by
  unfold type
  apply parallel_peek.bind
  intro start start' _
  apply parallel_if
  · apply parallel_ident.bind
    rintro ⟨name, pos⟩ ⟨name', pos'⟩ _
    exact parallel_pure rfl
  apply parallel_if
  · apply (parallel_expect _).bind
    intro _ _ _
    apply h.type.bind
    intro elem elem' _
    apply (parallel_expect _).bind
    intro _ _ _
    exact parallel_pure rfl
  apply parallel_if
  · apply (parallel_expect _).bind
    intro _ _ _
    apply h.type.bind
    intro first first' _
    apply (parallel_expect _).bind
    intro _ _ _
    apply h.type.bind
    intro second second' _
    apply h.moreTypes.bind
    intro rest rest' _
    apply (parallel_expect _).bind
    intro _ _ _
    exact parallel_pure rfl
  apply parallel_if
  · apply (parallel_expect _).bind
    intro _ _ _
    apply h.item.bind
    intro first first' hfirst
    apply h.moreItems.bind
    intro rest rest' hrest
    apply (parallel_expect _).bind
    intro _ _ _
    have hnames : (first :: rest).map Item.name = (first' :: rest').map Item.name :=
      congrArg₂ List.cons hfirst hrest
    apply (parallel_distinct hnames).bind
    intro _ _ _
    exact parallel_pure rfl
  · exact parallel_failUnexpected

private theorem parallel_moreTypes :
    Alongside (moreTypes (fuel + 1)) (moreTypes (fuel' + 1)) := by
  unfold moreTypes
  apply (parallel_take? _).bind_option
  · exact parallel_pure rfl
  intro _ _ _
  apply h.type.bind
  intro t t' _
  apply h.moreTypes.bind
  intro rest rest' _
  exact parallel_pure rfl

private theorem parallel_item : Parallel Item.name (item (fuel + 1)) (item (fuel' + 1)) := by
  unfold item
  apply parallel_ident.bind
  rintro ⟨name, pos⟩ ⟨name', pos'⟩ hname
  apply (parallel_expect _).bind
  intro _ _ _
  apply h.type.bind
  intro t t' _
  exact parallel_pure hname

private theorem parallel_moreItems :
    Parallel (List.map Item.name) (moreItems (fuel + 1)) (moreItems (fuel' + 1)) := by
  unfold moreItems
  apply (parallel_take? _).bind_option
  · exact parallel_pure rfl
  intro _ _ _
  apply h.item.bind
  intro first first' hfirst
  apply h.moreItems.bind
  intro rest rest' hrest
  exact parallel_pure (congrArg₂ List.cons hfirst hrest)

private theorem TypesParallel.succ : TypesParallel (fuel + 1) (fuel' + 1) :=
  ⟨parallel_type h, parallel_moreTypes h, parallel_item h, parallel_moreItems h⟩

end Types

private theorem typesParallel_self (fuel : Nat) : TypesParallel fuel fuel := by
  induction fuel with
  | zero => exact ⟨parallel_pastEnd, parallel_pastEnd, parallel_pastEnd, parallel_pastEnd⟩
  | succ fuel ih => exact ih.succ

theorem typesParallel (fuel fuel' : Nat) : TypesParallel fuel fuel' := by
  induction fuel generalizing fuel' with
  | zero =>
    have h := typesParallel_self fuel'
    exact ⟨h.type.spent_left, h.moreTypes.spent_left, h.item.spent_left, h.moreItems.spent_left⟩
  | succ fuel ih =>
    cases fuel' with
    | zero =>
      have h := typesParallel_self (fuel + 1)
      exact ⟨h.type.spent_right, h.moreTypes.spent_right, h.item.spent_right,
        h.moreItems.spent_right⟩
    | succ fuel' => exact (ih fuel').succ

theorem parallel_items (fuel fuel' : Nat) (close : Tag) :
    Parallel (List.map Item.name) (items fuel close) (items fuel' close) := by
  have h := typesParallel fuel fuel'
  unfold items
  apply parallel_if
  · exact parallel_pure rfl
  apply h.item.bind
  intro first first' hfirst
  apply h.moreItems.bind
  intro rest rest' hrest
  exact parallel_pure (congrArg₂ List.cons hfirst hrest)

theorem parallel_peekOperator : Parallel id peekOperator peekOperator := by
  unfold peekOperator
  exact parallel_if (parallel_pure rfl) (parallel_if (parallel_pure rfl) (parallel_if
    (parallel_pure rfl) (parallel_if (parallel_pure rfl) (parallel_if (parallel_pure rfl)
    (parallel_pure rfl)))))

theorem parallel_checkLiteral : Parallel id checkLiteral checkLiteral := by
  unfold checkLiteral
  exact parallel_if (parallel_pure rfl) (parallel_if (parallel_pure rfl) (parallel_if
    (parallel_pure rfl) (parallel_if (parallel_pure rfl) (parallel_check _))))

theorem parallel_literal : Alongside literal literal := by
  unfold literal
  apply parallel_next.bind
  intro t u hkind
  rw [hkind]
  cases u.kind with
  | integer | text | char => exact parallel_pure rfl
  | keyword k =>
    cases k with
    | kTrue | kFalse => exact parallel_pure rfl
    | _ => exact parallel_failUnexpected
  | symbol | ident | comment | invalid | eof => exact parallel_failUnexpected

/-- Only whether the left side is a name decides whether an assignment is right. -/
theorem parallel_combine (op : Operator) (pos pos' : Pos) {left left' : Expr} (right right' : Expr)
    (h : left.isIdent = left'.isIdent) :
    Parallel Expr.isIdent (combine op pos left right) (combine op pos' left' right') := by
  cases op with
  | arith op => exact parallel_pure rfl
  | assign =>
    cases left with
    | ident info name =>
      cases left' with
      | ident info' name' => exact parallel_pure rfl
      | _ => simp [Expr.isIdent] at h
    | _ =>
      cases left' with
      | ident info' name' => simp [Expr.isIdent] at h
      | _ => exact parallel_fail rfl

structure ExprsParallel (fuel fuel' : Nat) : Prop where
  climb : ∀ least, Parallel Expr.isIdent (climb fuel least) (climb fuel' least)
  climbRest : ∀ least left left', left.isIdent = left'.isIdent →
    Parallel Expr.isIdent (climbRest fuel least left) (climbRest fuel' least left')
  atom : Parallel Expr.isIdent (atom fuel) (atom fuel')
  exprs : ∀ close, Alongside (exprs fuel close) (exprs fuel' close)
  moreExprs : Alongside (moreExprs fuel) (moreExprs fuel')
  inits : ∀ close, Alongside (inits fuel close) (inits fuel' close)
  moreInits : Alongside (moreInits fuel) (moreInits fuel')
  init : Alongside (init fuel) (init fuel')

section Exprs

variable {fuel fuel' : Nat} (h : ExprsParallel fuel fuel')

include h

private theorem parallel_climb (least : Nat) :
    Parallel Expr.isIdent (climb (fuel + 1) least) (climb (fuel' + 1) least) := by
  unfold climb
  apply h.atom.bind
  intro left left' hleft
  exact h.climbRest least left left' hleft

private theorem parallel_climbRest (least : Nat) (left left' : Expr)
    (hleft : left.isIdent = left'.isIdent) :
    Parallel Expr.isIdent (climbRest (fuel + 1) least left) (climbRest (fuel' + 1) least left') := by
  unfold climbRest
  apply parallel_peekOperator.bind
  intro op op' hop
  obtain rfl : op = op' := hop
  cases op with
  | none => exact parallel_pure hleft
  | some op =>
    by_cases hlow : op.precedence < least
    · simp only [if_pos hlow]
      exact parallel_pure hleft
    · simp only [if_neg hlow]
      apply parallel_next.bind
      intro t t' _
      apply (h.climb _).bind
      intro right right' _
      apply (parallel_combine op t.pos t'.pos right right' hleft).bind
      intro whole whole' hwhole
      exact h.climbRest least whole whole' hwhole

private theorem parallel_atom : Parallel Expr.isIdent (atom (fuel + 1)) (atom (fuel' + 1)) := by
  unfold atom
  apply parallel_peek.bind
  intro start start' _
  apply parallel_checkLiteral.bind
  rintro isLiteral _ rfl
  cases isLiteral with
  | true =>
    apply parallel_literal.bind
    intro value value' _
    exact parallel_pure rfl
  | false =>
  apply parallel_if
  · apply (parallel_expect _).bind
    intro _ _ _
    apply (parallel_take? _).bind_option
    · apply (h.climb 0).bind
      intro first first' hfirst
      apply (parallel_take? _).bind_option
      · apply h.moreExprs.bind
        intro rest rest' _
        apply (parallel_expect _).bind
        intro _ _ _
        exact parallel_pure rfl
      · intro _ _ _
        exact parallel_pure hfirst
    · intro _ _ _
      exact parallel_pure rfl
  apply parallel_if
  · apply (parallel_expect _).bind
    intro _ _ _
    apply (h.exprs _).bind
    intro elems elems' _
    apply (parallel_expect _).bind
    intro _ _ _
    exact parallel_pure rfl
  apply parallel_if
  · apply (parallel_expect _).bind
    intro _ _ _
    apply (parallel_expect _).bind
    intro _ _ _
    apply (typesParallel fuel fuel').type.bind
    intro t t' _
    apply (parallel_expect _).bind
    intro _ _ _
    exact parallel_pure rfl
  apply parallel_if
  · apply parallel_ident.bind
    rintro ⟨name, pos⟩ ⟨name', pos'⟩ _
    apply parallel_if
    · apply (parallel_expect _).bind
      intro _ _ _
      apply (h.exprs _).bind
      intro args args' _
      apply (parallel_expect _).bind
      intro _ _ _
      exact parallel_pure rfl
    apply parallel_if
    · apply (parallel_expect _).bind
      intro _ _ _
      apply (h.inits _).bind
      intro inits inits' _
      apply (parallel_expect _).bind
      intro _ _ _
      exact parallel_pure rfl
    · exact parallel_pure rfl
  · exact parallel_failUnexpected

private theorem parallel_exprs (close : Tag) :
    Alongside (exprs (fuel + 1) close) (exprs (fuel' + 1) close) := by
  unfold exprs
  apply parallel_if
  · exact parallel_pure rfl
  apply (h.climb 0).bind
  intro first first' _
  apply h.moreExprs.bind
  intro rest rest' _
  exact parallel_pure rfl

private theorem parallel_moreExprs :
    Alongside (moreExprs (fuel + 1)) (moreExprs (fuel' + 1)) := by
  unfold moreExprs
  apply (parallel_take? _).bind_option
  · exact parallel_pure rfl
  intro _ _ _
  apply (h.climb 0).bind
  intro e e' _
  apply h.moreExprs.bind
  intro rest rest' _
  exact parallel_pure rfl

private theorem parallel_inits (close : Tag) :
    Alongside (inits (fuel + 1) close) (inits (fuel' + 1) close) := by
  unfold inits
  apply parallel_if
  · exact parallel_pure rfl
  apply h.init.bind
  intro first first' _
  apply h.moreInits.bind
  intro rest rest' _
  exact parallel_pure rfl

private theorem parallel_moreInits :
    Alongside (moreInits (fuel + 1)) (moreInits (fuel' + 1)) := by
  unfold moreInits
  apply (parallel_take? _).bind_option
  · exact parallel_pure rfl
  intro _ _ _
  apply h.init.bind
  intro first first' _
  apply h.moreInits.bind
  intro rest rest' _
  exact parallel_pure rfl

private theorem parallel_init : Alongside (init (fuel + 1)) (init (fuel' + 1)) := by
  unfold init
  apply parallel_ident.bind
  rintro ⟨name, pos⟩ ⟨name', pos'⟩ _
  apply (parallel_expect _).bind
  intro _ _ _
  apply (h.climb 0).bind
  intro e e' _
  exact parallel_pure rfl

private theorem ExprsParallel.succ : ExprsParallel (fuel + 1) (fuel' + 1) :=
  ⟨parallel_climb h, parallel_climbRest h, parallel_atom h, parallel_exprs h, parallel_moreExprs h,
    parallel_inits h, parallel_moreInits h, parallel_init h⟩

end Exprs

private theorem exprsParallel_self (fuel : Nat) : ExprsParallel fuel fuel := by
  induction fuel with
  | zero =>
    exact ⟨fun _ => parallel_pastEnd, fun _ _ _ _ => parallel_pastEnd, parallel_pastEnd,
      fun _ => parallel_pastEnd, parallel_pastEnd, fun _ => parallel_pastEnd, parallel_pastEnd,
      parallel_pastEnd⟩
  | succ fuel ih => exact ih.succ

theorem exprsParallel (fuel fuel' : Nat) : ExprsParallel fuel fuel' := by
  induction fuel generalizing fuel' with
  | zero =>
    have h := exprsParallel_self fuel'
    exact ⟨fun least => (h.climb least).spent_left,
      fun least _ _ hleft => (h.climbRest least _ _ hleft).spent_left, h.atom.spent_left,
      fun close => (h.exprs close).spent_left, h.moreExprs.spent_left,
      fun close => (h.inits close).spent_left, h.moreInits.spent_left, h.init.spent_left⟩
  | succ fuel ih =>
    cases fuel' with
    | zero =>
      have h := exprsParallel_self (fuel + 1)
      exact ⟨fun least => (h.climb least).spent_right,
        fun least _ _ hleft => (h.climbRest least _ _ hleft).spent_right, h.atom.spent_right,
        fun close => (h.exprs close).spent_right, h.moreExprs.spent_right,
        fun close => (h.inits close).spent_right, h.moreInits.spent_right, h.init.spent_right⟩
    | succ fuel' => exact (ih fuel').succ

theorem parallel_expr (fuel fuel' : Nat) : Parallel Expr.isIdent (expr fuel) (expr fuel') :=
  (exprsParallel fuel fuel').climb 0

theorem parallel_optional {α γ : Type} {g : α → γ} {p q : Parse α} (tag : Tag)
    (h : Parallel g p q) : Parallel (Option.map g) (optional tag p) (optional tag q) := by
  unfold optional
  apply parallel_if
  · apply (parallel_expect tag).bind
    intro _ _ _
    apply h.bind
    intro a b hval
    exact parallel_pure (congrArg some hval)
  · exact parallel_pure rfl

structure StmtsParallel (fuel fuel' : Nat) : Prop where
  stmt : Alongside (stmt fuel) (stmt fuel')
  block : Alongside (block fuel) (block fuel')
  stmts : Alongside (stmts fuel) (stmts fuel')

section Stmts

variable {fuel fuel' : Nat} (h : StmtsParallel fuel fuel')

include h

private theorem parallel_stmt : Alongside (stmt (fuel + 1)) (stmt (fuel' + 1)) := by
  have hexpr := parallel_expr fuel fuel'
  unfold stmt
  apply parallel_peek.bind
  intro start start' _
  apply parallel_if
  · apply (parallel_expect _).bind
    intro _ _ _
    apply parallel_ident.bind
    rintro ⟨name, pos⟩ ⟨name', pos'⟩ _
    apply (parallel_optional _ (typesParallel fuel fuel').type).bind_option
    · apply (parallel_expect _).bind
      intro _ _ _
      apply hexpr.bind
      intro init init' _
      apply (parallel_expect _).bind
      intro _ _ _
      exact parallel_pure rfl
    · intro t t' _
      apply (parallel_optional _ hexpr).bind
      intro init init' _
      apply (parallel_expect _).bind
      intro _ _ _
      exact parallel_pure rfl
  apply parallel_if
  · apply (parallel_expect _).bind
    intro _ _ _
    apply (parallel_expect _).bind
    intro _ _ _
    apply hexpr.bind
    intro test test' _
    apply (parallel_expect _).bind
    intro _ _ _
    apply h.stmt.bind
    intro yes yes' _
    apply parallel_if
    · apply (parallel_expect _).bind
      intro _ _ _
      apply h.stmt.bind
      intro no no' _
      exact parallel_pure rfl
    · exact parallel_pure rfl
  apply parallel_if
  · apply (parallel_expect _).bind
    intro _ _ _
    apply (parallel_expect _).bind
    intro _ _ _
    apply hexpr.bind
    intro test test' _
    apply (parallel_expect _).bind
    intro _ _ _
    apply h.stmt.bind
    intro body body' _
    exact parallel_pure rfl
  apply parallel_if
  · exact h.block
  apply parallel_if
  · apply (parallel_expect _).bind
    intro _ _ _
    apply parallel_if
    · apply (parallel_expect _).bind
      intro _ _ _
      exact parallel_pure rfl
    apply hexpr.bind
    intro e e' _
    apply (parallel_expect _).bind
    intro _ _ _
    exact parallel_pure rfl
  · apply hexpr.bind
    intro e e' _
    apply (parallel_expect _).bind
    intro _ _ _
    exact parallel_pure rfl

private theorem parallel_block : Alongside (block (fuel + 1)) (block (fuel' + 1)) := by
  unfold block
  apply (parallel_expect _).bind
  intro opening opening' _
  apply h.stmts.bind
  intro body body' _
  apply (parallel_expect _).bind
  intro _ _ _
  exact parallel_pure rfl

private theorem parallel_stmts : Alongside (stmts (fuel + 1)) (stmts (fuel' + 1)) := by
  unfold stmts
  apply parallel_if
  · exact parallel_pure rfl
  apply h.stmt.bind
  intro s s' _
  apply h.stmts.bind
  intro rest rest' _
  exact parallel_pure rfl

private theorem StmtsParallel.succ : StmtsParallel (fuel + 1) (fuel' + 1) :=
  ⟨parallel_stmt h, parallel_block h, parallel_stmts h⟩

end Stmts

private theorem stmtsParallel_self (fuel : Nat) : StmtsParallel fuel fuel := by
  induction fuel with
  | zero => exact ⟨parallel_pastEnd, parallel_pastEnd, parallel_pastEnd⟩
  | succ fuel ih => exact ih.succ

theorem stmtsParallel (fuel fuel' : Nat) : StmtsParallel fuel fuel' := by
  induction fuel generalizing fuel' with
  | zero =>
    have h := stmtsParallel_self fuel'
    exact ⟨h.stmt.spent_left, h.block.spent_left, h.stmts.spent_left⟩
  | succ fuel ih =>
    cases fuel' with
    | zero =>
      have h := stmtsParallel_self (fuel + 1)
      exact ⟨h.stmt.spent_right, h.block.spent_right, h.stmts.spent_right⟩
    | succ fuel' => exact (ih fuel').succ

theorem parallel_definition (fuel fuel' : Nat) :
    Alongside (definition fuel) (definition fuel') := by
  unfold definition
  apply (parallel_expect _).bind
  intro start start' _
  apply (parallel_take? _).bind_option
  · apply (parallel_take? _).bind_option
    · exact parallel_failUnexpected
    intro _ _ _
    apply parallel_ident.bind
    rintro ⟨name, pos⟩ ⟨name', pos'⟩ _
    apply (parallel_expect _).bind
    intro _ _ _
    apply (parallel_items fuel fuel' _).bind
    intro params params' hparams
    apply (parallel_expect _).bind
    intro _ _ _
    apply (parallel_distinct hparams).bind
    intro _ _ _
    apply (parallel_optional _ (typesParallel fuel fuel').type).bind
    intro ret ret' _
    apply (stmtsParallel fuel fuel').block.bind
    intro body body' _
    exact parallel_pure rfl
  · intro _ _ _
    apply parallel_ident.bind
    rintro ⟨name, pos⟩ ⟨name', pos'⟩ _
    apply (parallel_expect _).bind
    intro _ _ _
    apply (parallel_items fuel fuel' _).bind
    intro fields fields' hfields
    apply (parallel_expect _).bind
    intro _ _ _
    apply (parallel_distinct hfields).bind
    intro _ _ _
    exact parallel_pure rfl

private theorem parallel_parts_succ {fuel fuel' : Nat} (h : Alongside (parts fuel) (parts fuel')) :
    Alongside (parts (fuel + 1)) (parts (fuel' + 1)) := by
  unfold parts
  apply parallel_if
  · exact parallel_pure rfl
  apply parallel_if
  · apply (parallel_definition fuel fuel').bind
    intro d d' _
    apply h.bind
    rintro ⟨defs, stmts⟩ ⟨defs', stmts'⟩ _
    exact parallel_pure rfl
  · apply (stmtsParallel fuel fuel').stmt.bind
    intro s s' _
    apply h.bind
    rintro ⟨defs, stmts⟩ ⟨defs', stmts'⟩ _
    exact parallel_pure rfl

private theorem parallel_parts_self (fuel : Nat) : Alongside (parts fuel) (parts fuel) := by
  induction fuel with
  | zero => exact parallel_pastEnd
  | succ fuel ih => exact parallel_parts_succ ih

theorem parallel_parts (fuel fuel' : Nat) : Alongside (parts fuel) (parts fuel') := by
  induction fuel generalizing fuel' with
  | zero => exact (parallel_parts_self fuel').spent_left
  | succ fuel ih =>
    cases fuel' with
    | zero => exact (parallel_parts_self (fuel + 1)).spent_right
    | succ fuel' => exact parallel_parts_succ (ih fuel')

theorem parallel_module (fuel fuel' : Nat) (name : String) :
    Alongside (module fuel name) (module fuel' name) := by
  unfold module
  apply (parallel_parts fuel fuel').bind
  rintro ⟨defs, stmts⟩ ⟨defs', stmts'⟩ _
  apply (parallel_expect _).bind
  intro _ _ _
  exact parallel_pure rfl

end Grammar

theorem Tag.mem_all (tag : Tag) : tag ∈ Tag.all := by
  cases tag with
  | symbol s => cases s <;> decide
  | keyword k => cases k <;> decide
  | _ => decide

namespace Cursor

variable {c c' d : Cursor} {name : String}

theorem mem_expectedTags {tag : Tag} : tag ∈ c.expectedTags ↔ tag ∈ c.expected := by
  simp [expectedTags, Tag.mem_all]

/-- Reading a module stops in front of a token because it has none of the expected tags. -/
def Refuses (c : Cursor) (name : String) (t : Token) (rest : List Token) (expected : List Tag) :
    Prop :=
  ∃ c', c.parseModule name =
      .error (.diagnostic ((ParseError.unexpectedToken t.kind expected).at t.pos)) c' ∧
    c'.plain = t :: rest

theorem parseModule_settles (hc : c.Clear) (name : String) :
    (∃ m c', c.parseModule name = .ok m c' ∧ c'.tokens = []) ∨
    ∃ d c', c.parseModule name = .error (.diagnostic d) c' ∧ c'.Clear ∧ c'.Explains d :=
  Grammar.module_settles hc (by unfold Grammar.fuelFor; omega) name

/-- However reading a stream ends, the next token that is left was not asked for. -/
theorem not_mem_expected_after {t : Token} {rest : List Token}
    {r : EStateM.Result Stop Cursor Module} (hc : c.Clear) (hread : c.parseModule name = r)
    (hplain : (after r).plain = t :: rest) : t.tag ∉ (after r).expected := by
  subst hread
  rcases parseModule_settles hc name with ⟨m, c', hread, htokens⟩ | ⟨d, c', hread, hclear, -⟩
  · rw [hread] at hplain
    have hnil : c'.plain = [] := by simp [plain, plainTokens, htokens]
    exact absurd (hnil.symm.trans hplain) (by simp)
  · rw [hread] at hplain ⊢
    exact hclear.owed t rest hplain

theorem leads_parseModule (c : Cursor) (name : String) : c.Leads (after (c.parseModule name)) :=
  (Grammar.parallel_module _ (Grammar.fuelFor c.tokens.length) name).left c

theorem next_of_unexpected {found : TokenKind} {expected : List Tag} {pos : Pos} (hc : c.Clear)
    (hread : c.parseModule name =
      .error (.diagnostic ((ParseError.unexpectedToken found expected).at pos)) c') :
    ∃ t rest, c'.plain = t :: rest ∧ t.kind = found ∧ t.pos = pos ∧ c'.expectedTags = expected := by
  rcases parseModule_settles hc name with ⟨m, c'', hread', -⟩ | ⟨d, c'', hread', -, hexplains⟩
  · cases hread.symm.trans hread'
  · cases hread.symm.trans hread'
    obtain ⟨t, rest, hplain, hd⟩ := hexplains rfl
    cases hd
    exact ⟨t, rest, hplain, rfl, rfl, rfl⟩

theorem refuses_of_unexpected {t : Token} {rest : List Token} {stop : Stop} (hc : c.Clear)
    (hread : c.parseModule name = .error stop c') (hstop : stop.isUnexpected = true)
    (hplain : c'.plain = t :: rest) : c.Refuses name t rest c'.expectedTags := by
  rcases parseModule_settles hc name with ⟨m, c'', hread', -⟩ | ⟨d, c'', hread', -, hexplains⟩
  · cases hread.symm.trans hread'
  · cases hread.symm.trans hread'
    obtain ⟨u, us, hu, hd⟩ := hexplains hstop
    cases hplain.symm.trans hu
    rw [hd] at hread
    exact ⟨c', hread, hplain⟩

end Cursor

namespace Fork

open Cursor

variable {k : Fork} {c c' d : Cursor} {name : String} {stop : Stop}

/-- Where one run was refused at the fork, the other one is as well and for the same tags, or its
token has one of them and is taken. -/
theorem Abreast.refuses_or_takes (hcd : k.Abreast c d) (hc : c.Clear) (hd : d.Clear)
    (hread : c.parseModule name = .error stop c') (hstop : stop.isUnexpected = true)
    (hplain : c'.plain = k.left :: k.leftRest) :
    (k.right.tag ∉ c'.expected ∧ d.Refuses name k.right k.rightRest c'.expectedTags) ∨
    k.right.tag ∈ c'.expected ∧ (after (d.parseModule name)).plain <:+ k.rightRest := by
  have hleft : k.left.tag ∉ c'.expected := not_mem_expected_after hc hread hplain
  have hmeets : k.Meets _ (c.parseModule name) (d.parseModule name) :=
    (Grammar.parallel_module _ _ name).meets k c d hcd
  rw [hread] at hmeets
  generalize hread' : d.parseModule name = r at hmeets
  cases hmeets with
  | @error _ stop' _ d' hsame hcd' =>
    have hplain' : d'.plain = k.right :: k.rightRest := hcd'.right_of_left hplain
    have hright : k.right.tag ∉ d'.expected := not_mem_expected_after hd hread' hplain'
    have hrefuses := refuses_of_unexpected hd hread' (hsame.symm.trans hstop) hplain'
    have htags : d'.expectedTags = c'.expectedTags := by
      unfold expectedTags
      rw [hcd'.expected_eq]
    rw [← hcd'.expected_eq] at hright
    rw [htags] at hrefuses
    exact .inl ⟨hright, hrefuses⟩
  | parted hparted =>
    obtain ⟨tag, htag, hpast, hpast'⟩ := hparted
    have hasked : tag ∈ c'.expected := hpast.mem_expected hplain
    -- the run that was refused did not ask for its own token, so it asked for the other one
    rcases htag with rfl | rfl
    · exact absurd hasked hleft
    · rcases hpast' with htaken | ⟨hplain', hasked'⟩
      · exact .inr ⟨hasked, htaken⟩
      · exact absurd hasked' (not_mem_expected_after hd hread' hplain')
  | spent_left => cases hstop
  | spent_right =>
    rcases parseModule_settles hd name with ⟨m, d', hdone, -⟩ | ⟨e, d', hdone, -, -⟩
    · cases hread'.symm.trans hdone
    · cases hread'.symm.trans hdone

end Fork

/-- Where reading a stream fails at an unexpected token, the expected tags are exactly those that
would have been taken there: on every stream with tokens of the same kinds in front, a token with
another tag fails in the same way, and one with such a tag is taken. -/
theorem Cursor.parseModule_expected_exact {name : String} {tokens : List Token} {c c' : Cursor}
    {found : TokenKind} {expected : List Tag} {pos : Pos} (hc : ofTokens tokens = .ok c)
    (hfail : c.parseModule name =
      .error (.diagnostic ((ParseError.unexpectedToken found expected).at pos)) c') :
    ∃ before t rest, plainTokens tokens = before ++ t :: rest ∧ c'.plain = t :: rest ∧
      t.kind = found ∧ t.pos = pos ∧ t.tag ∉ expected ∧
      ∀ tokens' d before' u rest', ofTokens tokens' = .ok d →
        plainTokens tokens' = before' ++ u :: rest' →
        before'.map Token.kind = before.map Token.kind →
        (u.tag ∉ expected → d.Refuses name u rest' expected) ∧
        (u.tag ∈ expected → (after (d.parseModule name)).plain <:+ rest') := by
  obtain ⟨hends, rfl⟩ := ofTokens_eq_ok_iff.mp hc
  have hclear := clear_start hends
  obtain ⟨t, rest, hplain, hkind, hpos, rfl⟩ := next_of_unexpected hclear hfail
  have hleads := leads_parseModule ⟨tokens, []⟩ name
  rw [hfail] at hleads
  obtain ⟨before, hbefore⟩ : c'.plain <:+ plainTokens tokens := hleads.plain_le
  rw [hplain] at hbefore
  have hnot : t.tag ∉ c'.expected := not_mem_expected_after hclear hfail hplain
  refine ⟨before, t, rest, hbefore.symm, hplain, hkind, hpos, mt mem_expectedTags.mp hnot, ?_⟩
  intro tokens' d before' u rest' hd hbefore' hkinds
  obtain ⟨hends', rfl⟩ := ofTokens_eq_ok_iff.mp hd
  have habreast : Fork.Abreast ⟨t, rest, u, rest'⟩ ⟨tokens, []⟩ ⟨tokens', []⟩ :=
    ⟨⟨before, before', hbefore.symm, hbefore', hkinds.symm⟩, rfl⟩
  rw [mem_expectedTags]
  rcases habreast.refuses_or_takes hclear (clear_start hends') hfail rfl hplain with
    ⟨hother, hrefuses⟩ | ⟨hasked, htaken⟩
  · exact ⟨fun _ => hrefuses, fun hasked => absurd hasked hother⟩
  · exact ⟨fun hother => absurd hasked hother, fun _ => htaken⟩

def productTokens : List Token :=
  [⟨.ident "x", ⟨1, 1⟩⟩, ⟨.symbol .star, ⟨1, 3⟩⟩, ⟨.ident "y", ⟨1, 5⟩⟩]

/-- The tags that may follow them: what makes `y` a call or an object, all operators, also those
that bind less than the product, and the end of a statement. -/
def productFollow : List Tag :=
  [.symbol .plus, .symbol .minus, .symbol .star, .symbol .slash, .symbol .semicolon, .symbol .equal,
    .symbol .lparen, .symbol .lcurly]

theorem Cursor.parseModule_expected_exact_product :
    ∃ c d e, ofTokens (productTokens ++ [⟨.eof, ⟨1, 6⟩⟩]) = .ok c ∧
      ofTokens (productTokens ++ [⟨.symbol .rcurly, ⟨2, 1⟩⟩, ⟨.eof, ⟨3, 1⟩⟩]) = .ok d ∧
      ofTokens (productTokens ++ [⟨.symbol .plus, ⟨2, 1⟩⟩, ⟨.eof, ⟨3, 1⟩⟩]) = .ok e ∧
      c.Refuses "product" ⟨.eof, ⟨1, 6⟩⟩ [] productFollow ∧
      d.Refuses "product" ⟨.symbol .rcurly, ⟨2, 1⟩⟩ [⟨.eof, ⟨3, 1⟩⟩] productFollow ∧
      (after (e.parseModule "product")).plain <:+ [⟨.eof, ⟨3, 1⟩⟩] := by
  have hstream : ofTokens (productTokens ++ [⟨.eof, ⟨1, 6⟩⟩]) =
      .ok ⟨productTokens ++ [⟨.eof, ⟨1, 6⟩⟩], []⟩ := rfl
  obtain ⟨asked, hfail⟩ : ∃ asked,
      parseModule "product" ⟨productTokens ++ [⟨.eof, ⟨1, 6⟩⟩], []⟩ =
        .error (.diagnostic ((ParseError.unexpectedToken .eof productFollow).at ⟨1, 6⟩))
          ⟨[⟨.eof, ⟨1, 6⟩⟩], asked⟩ := ⟨_, rfl⟩
  obtain ⟨before, t, rest, hbefore, hplain, -, -, -, hexact⟩ :=
    parseModule_expected_exact hstream hfail
  cases hplain
  obtain rfl : productTokens = before := (List.append_inj' hbefore rfl).1
  have hbrace : ofTokens (productTokens ++ [⟨.symbol .rcurly, ⟨2, 1⟩⟩, ⟨.eof, ⟨3, 1⟩⟩]) =
      .ok ⟨productTokens ++ [⟨.symbol .rcurly, ⟨2, 1⟩⟩, ⟨.eof, ⟨3, 1⟩⟩], []⟩ := rfl
  have hplus : ofTokens (productTokens ++ [⟨.symbol .plus, ⟨2, 1⟩⟩, ⟨.eof, ⟨3, 1⟩⟩]) =
      .ok ⟨productTokens ++ [⟨.symbol .plus, ⟨2, 1⟩⟩, ⟨.eof, ⟨3, 1⟩⟩], []⟩ := rfl
  refine ⟨_, _, _, hstream, hbrace, hplus, ⟨_, hfail, rfl⟩, ?_, ?_⟩
  · exact (hexact _ _ productTokens _ _ hbrace rfl rfl).1 (by decide)
  · exact (hexact _ _ productTokens ⟨.symbol .plus, ⟨2, 1⟩⟩ _ hplus rfl rfl).2 (by decide)

end EdeLang
