import EdeLang.Json.Reader
import EdeLang.Json.Writer

/-!
# JSON reads what it writes

Strings with any characters, integers that fit a word, and lists of such values are read back from
their text, at every level of nesting and in front of every text that does not go on with a number.
-/

namespace EdeLang.Json

theorem bind_ok {ε α β : Type} (a : α) (f : α → Except ε β) : (Except.ok a >>= f) = f a := rfl

def Solid : List Char → Prop
  | [] => False
  | c :: _ => isBlank c = false

theorem solid_digit {c : Char} (hc : c.isDigit = true) (cs : List Char) : Solid (c :: cs) := by
  by_cases h : c = ' ' ∨ c = '\n' ∨ c = '\t' ∨ c = '\r'
  · rcases h with rfl | rfl | rfl | rfl <;> cases hc
  · simp_all [Solid, isBlank]

theorem skipBlanks_of_solid {cs : List Char} (h : Solid cs) : skipBlanks cs = cs := by
  cases cs with
  | nil => rfl
  | cons c cs =>
    have hc : ¬ isBlank c = true := by rw [show isBlank c = false from h]; simp
    exact List.dropWhile_cons_of_neg hc

theorem skipBlanks_newLine (level : Nat) {cs : List Char} (h : Solid cs) :
    skipBlanks (newLine level ++ cs) = cs := by
  have hblank : ∀ c ∈ newLine level, isBlank c = true := by
    intro c hc
    rcases List.mem_cons.mp hc with rfl | hc
    · rfl
    · rw [List.eq_of_mem_replicate hc]
      rfl
  rw [skipBlanks, List.dropWhile_append_of_pos hblank]
  exact skipBlanks_of_solid h

/-- A number does not go on with this text. -/
def Ends (rest : List Char) : Prop :=
  ∀ c ∈ rest.head?, c.isDigit = false ∧ c ≠ '.' ∧ c ≠ 'e' ∧ c ≠ 'E'

theorem ends_comma (cs : List Char) : Ends (',' :: cs) := by simp [Ends]

theorem ends_newLine (level : Nat) (cs : List Char) : Ends (newLine level ++ cs) := by
  simp [Ends, newLine]

theorem digits_append {ds rest : List Char} (hds : ∀ c ∈ ds, c.isDigit = true) (hrest : Ends rest)
    (start : Nat) :
    digits start (ds ++ rest) = (Nat.ofDigitChars 10 ds start, ds.length, rest) := by
  induction ds generalizing start with
  | nil =>
    cases rest with
    | nil => rfl
    | cons c cs =>
      have hc := (hrest c rfl).1
      simp [digits, hc]
  | cons d ds ih =>
    rw [List.forall_mem_cons] at hds
    rw [List.cons_append, digits, if_pos hds.1, ih hds.2, Nat.ofDigitChars_cons]
    rfl

theorem numberTail_of_ends {rest : List Char} (hrest : Ends rest) (negative : Bool) (n : Nat) :
    numberTail negative n rest = wholeNumber negative n rest := by
  cases rest with
  | nil => rfl
  | cons c cs =>
    obtain ⟨_, hpoint, he, hE⟩ := hrest c rfl
    unfold numberTail
    split
    · next heq =>
      cases heq
      exact absurd rfl hpoint
    · next heq =>
      cases heq
      simp [he, hE]
    · next heq => cases heq

theorem digitChar_ne_zero {d : Nat} (hpos : 0 < d) (hlt : d < 10) : d.digitChar ≠ '0' := by
  have hall : ∀ d : Fin 10, 0 < d.val → d.val.digitChar ≠ '0' := by decide
  exact hall ⟨d, hlt⟩ hpos

theorem head?_toDigits_ne_zero {n : Nat} (hn : 0 < n) : (Nat.toDigits 10 n).head? ≠ some '0' := by
  induction n using Nat.strongRecOn with
  | ind n ih =>
    by_cases hlt : n < 10
    · rw [Nat.toDigits_of_lt_base hlt]
      simpa using digitChar_ne_zero hn hlt
    · have hle : 10 ≤ n := Nat.le_of_not_lt hlt
      have hhead := ih (n / 10) (by omega) (by omega)
      rw [Nat.toDigits_of_base_le (by omega) hle]
      cases hchars : Nat.toDigits 10 (n / 10) with
      | nil => exact absurd hchars Nat.toDigits_ne_nil
      | cons c cs => rwa [hchars] at hhead

theorem number_zero (negative : Bool) {rest : List Char} (hrest : Ends rest) :
    number negative ('0' :: rest) = wholeNumber negative 0 rest := by
  rw [← numberTail_of_ends hrest]
  cases rest with
  | nil => rfl
  | cons c cs =>
    show (if c.isDigit then failAhead .invalidNumber (c :: cs)
      else numberTail negative 0 (c :: cs)) = numberTail negative 0 (c :: cs)
    rw [(hrest c rfl).1]
    rfl

theorem isDigit_of_mem_toDigits (n : Nat) : ∀ c ∈ Nat.toDigits 10 n, c.isDigit = true :=
  fun _ hc => Nat.isDigit_of_mem_toDigits (by omega) (by omega) hc

theorem number_toDigits (negative : Bool) (n : Nat) {rest : List Char} (hrest : Ends rest) :
    number negative (Nat.toDigits 10 n ++ rest) = wholeNumber negative n rest := by
  by_cases hn : n = 0
  · subst hn
    exact number_zero negative hrest
  · have hhead := head?_toDigits_ne_zero (Nat.pos_of_ne_zero hn)
    have hvalue := digits_append (isDigit_of_mem_toDigits n) hrest 0
    rw [Nat.ofDigitChars_ten_toDigits] at hvalue
    cases hchars : Nat.toDigits 10 n with
    | nil => exact absurd hchars Nat.toDigits_ne_nil
    | cons c cs =>
      have hc : c.isDigit = true := isDigit_of_mem_toDigits n c (by simp [hchars])
      rw [hchars] at hhead hvalue
      have hne : c ≠ '0' := by simpa using hhead
      rw [List.cons_append] at hvalue ⊢
      rw [number, if_pos hc, hvalue]
      · exact numberTail_of_ends hrest negative n
      · simpa using hne

theorem hexValue?_digitChar {d : Nat} (h : d < 16) : hexValue? d.digitChar = some d := by
  have hall : ∀ d : Fin 16, hexValue? d.val.digitChar = some d.val := by decide
  exact hall ⟨d, h⟩

theorem padLeft_hexLower {n : Nat} (h : n < 32) : (Text.padLeft 4 '0' (Text.hexLower n)).toList =
    ['0', '0', (n / 16).digitChar, (n % 16).digitChar] := by
  have hall : ∀ n : Fin 32, (Text.padLeft 4 '0' (Text.hexLower n.val)).toList =
      ['0', '0', (n.val / 16).digitChar, (n.val % 16).digitChar] := by decide +kernel
  exact hall ⟨n, h⟩

theorem hexUnit_control {n : Nat} (h : n < 32) (rest : List Char) :
    hexUnit ((Text.padLeft 4 '0' (Text.hexLower n)).toList ++ rest) = .ok (n, rest) := by
  have hhigh := hexValue?_digitChar (show n / 16 < 16 by omega)
  have hlow := hexValue?_digitChar (Nat.mod_lt n (show 0 < 16 by omega))
  have hzero : hexValue? '0' = some 0 := by decide
  have hsize : ¬ (('0' :: '0' :: (n / 16).digitChar :: (n % 16).digitChar :: rest).foldr
      (fun c size => c.utf8Size + size) 0 < 4) := by
    have hfirst := Char.utf8Size_pos '0'
    have hthird := Char.utf8Size_pos (n / 16).digitChar
    have hfourth := Char.utf8Size_pos (n % 16).digitChar
    simp only [List.foldr_cons]
    omega
  rw [padLeft_hexLower h]
  simp only [List.cons_append, List.nil_append, hexUnit, if_neg hsize, hzero, hhigh, hlow]
  congr 2
  omega

theorem escape_control {c : Char} (h : c.toNat < 32) (rest : List Char) :
    escape ('u' :: (Text.padLeft 4 '0' (Text.hexLower c.toNat)).toList ++ rest) =
      .ok (c, rest) := by
  have hhigh : ¬ (0xdc00 ≤ c.toNat ∧ c.toNat ≤ 0xdfff) := by omega
  have hlow : ¬ (0xd800 ≤ c.toNat ∧ c.toNat ≤ 0xdbff) := by omega
  rw [List.cons_append, escape, hexUnit_control h rest]
  simp only [bind, Except.bind, if_neg hhigh, if_neg hlow, pure, Except.pure, Char.ofNat_toNat]

/-- One character of a string is read back from its escaped form. -/
theorem stringChars_escapedChar (fuel : Nat) (c : Char) (cs : List Char) :
    stringChars (fuel + 1) (escapedChar c ++ cs) = do
      let (more, rest) ← stringChars fuel cs
      return (c :: more, rest) := by
  unfold escapedChar
  split
  case h_8 hquote hslash _ _ _ _ _ =>
    split
    · next hlt =>
      have hcontrol := escape_control hlt cs
      simp only [List.cons_append, List.nil_append] at hcontrol ⊢
      rw [stringChars, if_neg (by decide), if_pos rfl, hcontrol]
      rfl
    · next hge =>
      rw [List.singleton_append, stringChars, if_neg hquote, if_neg hslash, if_neg hge]
  all_goals rfl

theorem escapedChar_ne_nil (c : Char) : escapedChar c ≠ [] := by
  unfold escapedChar
  split
  case h_8 => split <;> simp
  all_goals simp

theorem stringChars_flatMap (s rest : List Char) {fuel : Nat}
    (hfuel : (s.flatMap escapedChar).length < fuel) :
    stringChars fuel (s.flatMap escapedChar ++ '"' :: rest) = .ok (s, rest) := by
  induction s generalizing fuel with
  | nil =>
    obtain ⟨k, rfl⟩ := Nat.exists_eq_add_of_lt hfuel
    rfl
  | cons c s ih =>
    have hpos := List.length_pos_iff.mpr (escapedChar_ne_nil c)
    rw [List.flatMap_cons, List.length_append] at hfuel
    obtain ⟨k, rfl⟩ : ∃ k, fuel = k + 1 := ⟨fuel - 1, by omega⟩
    rw [List.flatMap_cons, List.append_assoc, stringChars_escapedChar, ih (by omega)]
    rfl

theorem stringText_flatMap (s : String) (rest : List Char) :
    stringText (s.toList.flatMap escapedChar ++ '"' :: rest) = .ok (s, rest) := by
  rw [stringText, stringChars_flatMap s.toList rest (by simp)]
  simp [bind, Except.bind, pure, Except.pure]

def Opens (cs : List Char) : Prop := Solid cs ∧ cs.head? ≠ some ']'

theorem Opens.append {cs : List Char} (h : Opens cs) (rest : List Char) : Opens (cs ++ rest) := by
  cases cs with
  | nil => exact h.1.elim
  | cons c cs => exact h

/-- The value is read back from its text, at every level and wherever a number may end. -/
structure Reads (depth : Nat) (v : Json) : Prop where
  opens : ∀ level, Opens (pretty level v)
  value_eq : ∀ (level fuel : Nat) (rest : List Char), Ends rest →
    (pretty level v).length < fuel → value fuel depth (pretty level v ++ rest) = .ok (v, rest)

section Dispatch

variable (fuel depth : Nat) (cs : List Char)

theorem value_quote : value (fuel + 1) depth ('"' :: cs) = do
    let (s, rest) ← stringText cs
    return (.string s, rest) := rfl

theorem value_minus : value (fuel + 1) depth ('-' :: cs) = number true cs := rfl

theorem value_bracket : value (fuel + 1) (depth + 1) ('[' :: cs) = do
    let (elements, rest) ← elements fuel depth true cs
    return (.array elements, rest) := rfl

theorem value_digit {c : Char} (hc : c.isDigit = true) :
    value (fuel + 1) depth (c :: cs) = number false (c :: cs) := by
  rw [value, skipBlanks_of_solid (solid_digit hc cs)]
  split
  case h_9 heq =>
    cases heq
    rw [if_pos hc]
  all_goals
    next heq =>
    cases heq
    try cases hc

end Dispatch

theorem reads_string (depth : Nat) (s : String) : Reads depth (.string s) := by
  refine ⟨fun _ => ⟨rfl, by simp [pretty, quoted]⟩, ?_⟩
  intro level fuel rest _ hfuel
  obtain ⟨k, rfl⟩ : ∃ k, fuel = k + 1 := ⟨fuel - 1, by omega⟩
  have htext : pretty level (.string s) ++ rest =
      '"' :: (s.toList.flatMap escapedChar ++ '"' :: rest) := by simp [pretty, quoted]
  rw [htext, value_quote, stringText_flatMap]
  rfl

theorem pretty_natural (level n : Nat) : pretty level (.integer n) = Nat.toDigits 10 n := by
  have hrepr : toString (n : Int) = n.repr := rfl
  rw [pretty, hrepr, Nat.toList_repr]

theorem pretty_negative (level : Nat) {n : Nat} (hn : 0 < n) :
    pretty level (.integer (-(n : Int))) = '-' :: Nat.toDigits 10 n := by
  have hneg : ¬ (0 : Int) ≤ -n := by omega
  rw [pretty, Int.toString_eq_repr, Int.repr_eq_if, if_neg hneg, String.toList_append,
    Int.neg_neg, Int.toNat_natCast, Nat.toList_repr]
  rfl

theorem reads_natural (depth : Nat) {n : Nat} (hn : n < 0x10000000000000000) :
    Reads depth (.integer n) := by
  obtain ⟨c, cs, hchars⟩ := List.exists_cons_of_ne_nil (Nat.toDigits_ne_nil (n := n) (b := 10))
  have hc : c.isDigit = true := isDigit_of_mem_toDigits n c (by simp [hchars])
  refine ⟨fun level => ?_, ?_⟩
  · rw [pretty_natural, hchars]
    refine ⟨solid_digit hc cs, fun h => ?_⟩
    cases h
    cases hc
  · intro level fuel rest hrest hfuel
    obtain ⟨k, rfl⟩ : ∃ k, fuel = k + 1 := ⟨fuel - 1, by omega⟩
    have hnumber := number_toDigits false n hrest
    rw [pretty_natural]
    rw [hchars, List.cons_append] at hnumber ⊢
    rw [value_digit k depth _ hc, hnumber, wholeNumber, if_neg (by decide), if_pos hn]

theorem reads_negative (depth : Nat) {n : Nat} (hpos : 0 < n) (hn : n ≤ 0x8000000000000000) :
    Reads depth (.integer (-(n : Int))) := by
  refine ⟨fun level => ?_, ?_⟩
  · rw [pretty_negative level hpos]
    exact ⟨rfl, by simp⟩
  · intro level fuel rest hrest hfuel
    obtain ⟨k, rfl⟩ : ∃ k, fuel = k + 1 := ⟨fuel - 1, by omega⟩
    rw [pretty_negative level hpos, List.cons_append, value_minus, number_toDigits true n hrest,
      wholeNumber, if_pos rfl, if_pos ⟨hpos, hn⟩]

theorem reads_word (depth : Nat) (v : Int64) : Reads depth (.integer v.toInt) := by
  have hlow := v.le_toInt
  have hhigh := v.toInt_lt
  by_cases hneg : v.toInt < 0
  · obtain ⟨n, hn⟩ : ∃ n : Nat, v.toInt = -(n : Int) := ⟨v.toInt.natAbs, by omega⟩
    rw [hn]
    exact reads_negative depth (by omega) (by omega)
  · obtain ⟨n, hn⟩ := Int.eq_ofNat_of_zero_le (Int.not_lt.mp hneg)
    rw [hn]
    exact reads_natural depth (by omega)

/-- The next element of a list starts with `cs`. -/
def Starts (first : Bool) (text cs : List Char) : Prop :=
  Opens (skipBlanks text) ∧ nextElement first (skipBlanks text) = .ok cs

theorem starts_first (level : Nat) {cs : List Char} (h : Opens cs) :
    Starts true (newLine level ++ cs) cs := by
  rw [Starts, skipBlanks_newLine level h.1]
  exact ⟨h, rfl⟩

theorem starts_next (level : Nat) {cs : List Char} (h : Opens cs) :
    Starts false (',' :: newLine level ++ cs) cs := by
  have hsolid : Solid (',' :: newLine level ++ cs) := rfl
  rw [Starts, skipBlanks_of_solid hsolid]
  refine ⟨⟨hsolid, by simp⟩, ?_⟩
  rw [List.cons_append, nextElement, if_neg (by decide)]
  simp only [skipBlanks_newLine level h.1]
  split
  · exact h.1.elim
  · exact absurd rfl h.2
  · rfl

/-- Further elements are followed by a comma or by the end of the line. -/
theorem ends_prettyElements (level outer : Nat) (vs : List Json) (rest : List Char) :
    Ends (prettyElements level vs ++ (newLine outer ++ ']' :: rest)) := by
  cases vs with
  | nil => exact ends_newLine outer _
  | cons v vs => exact ends_comma _

section Lists

variable {depth : Nat}

theorem elements_close (fuel level : Nat) (first : Bool) (rest : List Char) :
    elements (fuel + 1) depth first (newLine level ++ ']' :: rest) = .ok ([], rest) := by
  have hsolid : Solid (']' :: rest) := rfl
  rw [elements, skipBlanks_newLine level hsolid]
  rfl

theorem elements_step {first : Bool} {text rest rest' : List Char} {level fuel : Nat} {v : Json}
    {vs : List Json} (hv : Reads depth v) (hstart : Starts first text (pretty level v ++ rest))
    (hrest : Ends rest) (hfuel : (pretty level v).length < fuel)
    (hmore : elements fuel depth false rest = .ok (vs, rest')) :
    elements (fuel + 1) depth first text = .ok (v :: vs, rest') := by
  obtain ⟨hopens, hnext⟩ := hstart
  rw [elements]
  split
  · next hskip =>
    rw [hskip] at hopens
    exact hopens.1.elim
  · next hskip =>
    rw [hskip] at hopens
    exact absurd rfl hopens.2
  · next hskip =>
    rw [← hskip, hnext, bind_ok, hv.value_eq level fuel rest hrest hfuel]
    simp only [bind_ok, hmore]
    rfl

theorem elements_pretty {vs : List Json} (hvs : ∀ v ∈ vs, Reads depth v) (level outer : Nat)
    (rest : List Char) {fuel : Nat} (hfuel : (prettyElements level vs).length < fuel) :
    elements fuel depth false (prettyElements level vs ++ (newLine outer ++ ']' :: rest)) =
      .ok (vs, rest) := by
  obtain ⟨k, rfl⟩ : ∃ k, fuel = k + 1 := ⟨fuel - 1, by omega⟩
  induction vs generalizing k with
  | nil => exact elements_close k outer false rest
  | cons v vs ih =>
    rw [List.forall_mem_cons] at hvs
    have htext : prettyElements level (v :: vs) ++ (newLine outer ++ ']' :: rest) =
        ',' :: newLine level ++ (pretty level v ++
          (prettyElements level vs ++ (newLine outer ++ ']' :: rest))) := by
      simp [prettyElements]
    -- the comma pays for the fuel that the step takes
    have hlength : (pretty level v).length + (prettyElements level vs).length + 1 ≤ k := by
      simp [prettyElements, newLine] at hfuel
      omega
    have hstart := starts_next level ((hvs.1.opens level).append
      (prettyElements level vs ++ (newLine outer ++ ']' :: rest)))
    obtain ⟨j, rfl⟩ : ∃ j, k = j + 1 := ⟨k - 1, by omega⟩
    rw [htext]
    exact elements_step hvs.1 hstart (ends_prettyElements level outer vs rest) (by omega)
      (ih hvs.2 j (by omega))

/-- A list of values that are read back is read back. -/
theorem reads_array {vs : List Json} (hvs : ∀ v ∈ vs, Reads depth v) :
    Reads (depth + 1) (.array vs) := by
  cases vs with
  | nil =>
    refine ⟨fun _ => ⟨rfl, by simp [pretty]⟩, ?_⟩
    intro level fuel rest _ hfuel
    obtain ⟨k, rfl⟩ : ∃ k, fuel = k + 2 := ⟨fuel - 2, by simp [pretty] at hfuel; omega⟩
    rfl
  | cons v vs =>
    rw [List.forall_mem_cons] at hvs
    refine ⟨fun _ => ⟨rfl, by simp [pretty]⟩, ?_⟩
    intro level fuel rest _ hfuel
    have htext : pretty level (.array (v :: vs)) ++ rest = '[' :: (newLine (level + 1) ++
        (pretty (level + 1) v ++ (prettyElements (level + 1) vs ++
          (newLine level ++ ']' :: rest)))) := by
      simp [pretty]
    have hlength : (pretty (level + 1) v).length + (prettyElements (level + 1) vs).length + 2 <
        fuel := by
      simp [pretty, newLine] at hfuel
      omega
    obtain ⟨k, rfl⟩ : ∃ k, fuel = k + 2 := ⟨fuel - 2, by omega⟩
    have hstart := starts_first (level + 1) ((hvs.1.opens (level + 1)).append
      (prettyElements (level + 1) vs ++ (newLine level ++ ']' :: rest)))
    have hmore : elements k depth false _ = .ok (vs, rest) :=
      elements_pretty hvs.2 (level + 1) level rest (by omega)
    have helements := elements_step hvs.1 hstart (ends_prettyElements (level + 1) level vs rest)
      (by omega) hmore
    rw [htext, value_bracket, helements]
    rfl

end Lists

end EdeLang.Json
