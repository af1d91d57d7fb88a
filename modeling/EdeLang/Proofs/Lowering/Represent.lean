import EdeLang.Lowering.Lower
import EdeLang.Proofs.Evaluation.Work
import EdeLang.Proofs.Machine.Effect
import Mathlib.Data.List.Forall2

/-!
# Evaluation on the machine

A word stands for a value in a heap: scalars for themselves, all else by the handle of a block.
Within a call the stack holds the variables of the environment and, above them, the values that
expressions have pushed. A simulation says that the machine, from every such state, goes the way
that an evaluation goes, in no more steps than the work of the evaluation. The number of its steps
is fixed before the state is, and so does not depend on limits.
-/

namespace EdeLang

namespace Value

def charWord (c : Char) : Word := .ofInt (Int64.ofNat c.toNat)

mutual

/-- The word stands for the value. -/
def Rep (heap : Heap) : Value → Word → Prop
  | .unit, w => w = .ofInt 0
  | .int v, w => w = .ofInt v
  | .char c, w => w = charWord c
  | .bool b, w => w = .ofInt (if b then 1 else 0)
  | .string s, w => Machine.Holds heap w (s.toList.map charWord)
  | .array elems, w => ∃ words, Machine.Holds heap w words ∧ RepAll heap elems words
  | .tuple elems, w => ∃ words, Machine.Holds heap w words ∧ RepAll heap elems words
  | .object _ fields, w => ∃ words, Machine.Holds heap w words ∧ RepFields heap fields words

def RepAll (heap : Heap) : List Value → List Word → Prop
  | [], words => words = []
  | v :: vs, words => ∃ w ws, words = w :: ws ∧ Rep heap v w ∧ RepAll heap vs ws

def RepFields (heap : Heap) : List (String × Value) → List Word → Prop
  | [], words => words = []
  | (_, v) :: fields, words => ∃ w ws, words = w :: ws ∧ Rep heap v w ∧ RepFields heap fields ws

end

variable {heap heap' : Heap}

mutual

/-- A word stands for the same value in a heap with more blocks. -/
theorem Rep.mono (ext : heap.Extends heap') : ∀ {v : Value} {w : Word},
    v.Rep heap w → v.Rep heap' w
  | .unit, _, h | .int _, _, h | .char _, _, h | .bool _, _, h => h
  | .string _, _, h => ext.block? h
  | .array _, _, ⟨words, hw, h⟩ => ⟨words, ext.block? hw, RepAll.mono ext h⟩
  | .tuple _, _, ⟨words, hw, h⟩ => ⟨words, ext.block? hw, RepAll.mono ext h⟩
  | .object _ _, _, ⟨words, hw, h⟩ => ⟨words, ext.block? hw, RepFields.mono ext h⟩

theorem RepAll.mono (ext : heap.Extends heap') : ∀ {vs : List Value} {ws : List Word},
    RepAll heap vs ws → RepAll heap' vs ws
  | [], _, h => h
  | _ :: _, _, ⟨w, ws, hws, hw, h⟩ => ⟨w, ws, hws, hw.mono ext, RepAll.mono ext h⟩

theorem RepFields.mono (ext : heap.Extends heap') : ∀ {vs : List (String × Value)}
    {ws : List Word}, RepFields heap vs ws → RepFields heap' vs ws
  | [], _, h => h
  | (_, _) :: _, _, ⟨w, ws, hws, hw, h⟩ => ⟨w, ws, hws, hw.mono ext, RepFields.mono ext h⟩

end

theorem repAll_of_forall₂ {vs : List Value} {ws : List Word}
    (h : List.Forall₂ (Rep heap) vs ws) : RepAll heap vs ws := by
  induction h with
  | nil => rfl
  | cons hw _ ih => exact ⟨_, _, rfl, hw, ih⟩

theorem repFields_of_forall₂ {fields : List (String × Value)} {ws : List Word}
    (h : List.Forall₂ (Rep heap) (fields.map Prod.snd) ws) : RepFields heap fields ws := by
  induction fields generalizing ws with
  | nil =>
    cases h
    rfl
  | cons field fields ih =>
    cases h with
    | cons hw hrest => exact ⟨_, _, rfl, hw, ih hrest⟩

theorem forall₂_mono (ext : heap.Extends heap') {vs : List Value} {ws : List Word}
    (h : List.Forall₂ (Rep heap) vs ws) : List.Forall₂ (Rep heap') vs ws :=
  h.imp fun _ _ hw => hw.mono ext

theorem exists_append_of_forall₂ {us vs : List Value} {ws : List Word}
    (h : List.Forall₂ (Rep heap) (us ++ vs) ws) : ∃ first second,
      List.Forall₂ (Rep heap) us first ∧ List.Forall₂ (Rep heap) vs second ∧
        ws = first ++ second := by
  induction us generalizing ws with
  | nil => exact ⟨[], ws, .nil, h, rfl⟩
  | cons u us ih =>
    cases h with
    | cons hw hrest =>
      obtain ⟨first, second, hfirst, hsecond, rfl⟩ := ih hrest
      exact ⟨_ :: first, second, .cons hw hfirst, hsecond, rfl⟩

end Value

/-- The values of the variables in the order of declaration. -/
def Env.values (env : Env) : List Value := env.flatten.reverse.map Prod.snd

/-- What stays the same while a part of a call runs: the machine up to its place, stack and heap,
the words below the frame, and those that are pushed already. The heap can only grow. -/
structure Scene (b : Binary) where
  machine : Machine
  below : List Word
  temps : List Word
  heap : Heap
  hosts : machine.Hosts b
  base : machine.fp = below.length

namespace Scene

variable {b : Binary}

/-- The machine is at an offset, with the variables of the environment in the frame and the
values pushed. -/
def Pushed (ip : Nat) (vs : List Value) (env : Env) (s : Scene b) (m : Machine) : Prop :=
  ∃ vars words heap, m = s.machine.poised ip (s.below ++ vars ++ s.temps ++ words) heap ∧
    s.heap.Extends heap ∧
    List.Forall₂ (Value.Rep heap) env.values vars ∧
    List.Forall₂ (Value.Rep heap) vs words

def lifted (s : Scene b) (words : List Word) (heap : Heap) : Scene b :=
  { s with temps := s.temps ++ words, heap }

theorem Pushed.split {ip : Nat} {us vs : List Value} {env : Env} {s : Scene b} {m : Machine}
    (h : s.Pushed ip (us ++ vs) env m) : ∃ words heap, s.heap.Extends heap ∧
      List.Forall₂ (Value.Rep heap) us words ∧ (s.lifted words heap).Pushed ip vs env m := by
  obtain ⟨vars, words, heap, rfl, hext, hvars, hwords⟩ := h
  obtain ⟨first, second, hfirst, hsecond, rfl⟩ := Value.exists_append_of_forall₂ hwords
  refine ⟨first, heap, hext, hfirst, vars, second, heap, ?_, .refl heap, hvars, hsecond⟩
  simp [lifted, List.append_assoc]

theorem Pushed.imp {ip : Nat} {u v : Value} {env : Env} {s : Scene b} {m : Machine}
    (h : s.Pushed ip [v] env m) (himp : ∀ heap w, v.Rep heap w → u.Rep heap w) :
    s.Pushed ip [u] env m := by
  obtain ⟨vars, words, heap, hm, hext, hvars, hwords⟩ := h
  cases hwords with
  | cons hw hrest => exact ⟨vars, _, heap, hm, hext, hvars, .cons (himp heap _ hw) hrest⟩

theorem Pushed.join {ip : Nat} {us vs : List Value} {env : Env} {s : Scene b} {m : Machine}
    {words : List Word} {heap : Heap} (hext : s.heap.Extends heap)
    (hus : List.Forall₂ (Value.Rep heap) us words) (h : (s.lifted words heap).Pushed ip vs env m) :
    s.Pushed ip (us ++ vs) env m := by
  obtain ⟨vars, more, heap', rfl, hext', hvars, hmore⟩ := h
  refine ⟨vars, words ++ more, heap', ?_, hext.trans hext', hvars, ?_⟩
  · simp [lifted, List.append_assoc]
  · exact List.rel_append (Value.forall₂_mono hext' hus) hmore

end Scene

/-- So many steps lead from each state to one as described, or the machine is barred. -/
def Moves (b : Binary) (n : Nat) (S S' : Scene b → Machine → Prop) : Prop :=
  ∀ s m, S s m → m.Reaches b n (S' s)

/-- What the machine has reached when an evaluation has ended. -/
def Outcome (b : Binary) {α : Type} (r : Except Halt α) (P : α → Machine → Prop) (m : Machine) :
    Prop :=
  match r with
  | .ok a => P a m
  | .error (.divisionByZero _) => m.Divides b
  | .error _ => True

/-- The machine goes the way of an evaluation, with at most the given number of steps. If the
evaluation runs out of fuel, the machine takes at least the other number of them. -/
def Sim (b : Binary) (least most : Nat) {α : Type} (S : Scene b → Machine → Prop)
    (r : Except Halt α) (P : Scene b → α → Machine → Prop) : Prop :=
  ∃ n, n ≤ most ∧ (r = .error .outOfFuel → least ≤ n) ∧
    ∀ s m, S s m → m.Reaches b n (Outcome b r (P s))

section Rules

variable {b : Binary} {α β : Type} {n k least most : Nat} {S S' : Scene b → Machine → Prop}
  {r : Except Halt α} {P : Scene b → α → Machine → Prop}

theorem Moves.trans {S'' : Scene b → Machine → Prop} (h : Moves b n S S') (h' : Moves b k S' S'') :
    Moves b (n + k) S S'' :=
  fun s m hs => (h s m hs).bind fun m' hs' => h' s m' hs'

namespace Sim

theorem of_moves {a : α} (h : Moves b n S fun s => P s a) : Sim b least n S (.ok a) P :=
  ⟨n, Nat.le_refl n, by simp, h⟩

theorem ok {a : α} (h : ∀ s m, S s m → P s a m) : Sim b least 0 S (.ok a) P :=
  of_moves fun s m hs => .here (h s m hs)

theorem outOfFuel : Sim b 0 0 S (.error .outOfFuel : Except Halt α) P :=
  ⟨0, Nat.le_refl 0, by simp, fun _ _ _ => .here trivial⟩

theorem least_mono (h : Sim b least most S r P) (hle : k ≤ least) : Sim b k most S r P := by
  obtain ⟨n, hmost, hfuel, hreach⟩ := h
  exact ⟨n, hmost, fun hr => Nat.le_trans hle (hfuel hr), hreach⟩

theorem most_mono (h : Sim b least most S r P) (hle : most ≤ k) : Sim b least k S r P := by
  obtain ⟨n, hmost, hfuel, hreach⟩ := h
  exact ⟨n, Nat.le_trans hmost hle, hfuel, hreach⟩

/-- An evaluation whose first part is simulated. -/
theorem bind {r' : Except Halt β} {Q : Scene b → β → Machine → Prop} {rest : α → Nat}
    (h : Sim b least most S r P)
    (next : ∀ a, r = .ok a → Sim b least (rest a) (fun s => P s a) r' Q)
    (herror : ∀ e, r = .error e → r' = .error e) :
    Sim b least (most + workAfter r rest) S r' Q := by
  obtain ⟨n, hmost, hfuel, hreach⟩ := h
  cases r with
  | error e =>
    obtain rfl := herror e rfl
    refine ⟨n, Nat.le_add_right_of_le hmost, by simpa using hfuel, fun s m hs => ?_⟩
    refine (hreach s m hs).mono fun m' h' => ?_
    cases e <;> exact h'
  | ok a =>
    obtain ⟨k, hmost', hfuel', hreach'⟩ := next a rfl
    refine ⟨n + k, Nat.add_le_add hmost hmost', fun hr => ?_, fun s m hs => ?_⟩
    · have hk := hfuel' hr
      omega
    · exact (hreach s m hs).bind (hreach' s)

/-- A second part that takes no more steps than a number known before the first one is done. -/
theorem bind_const {r' : Except Halt β} {Q : Scene b → β → Machine → Prop}
    (h : Sim b least most S r P) (next : ∀ a, r = .ok a → Sim b least k (fun s => P s a) r' Q)
    (herror : ∀ e, r = .error e → r' = .error e) : Sim b least (most + k) S r' Q := by
  have hrest : workAfter r (fun _ => k) ≤ k := workAfter_le fun _ _ => Nat.le_refl k
  exact (h.bind next herror).most_mono (Nat.add_le_add_left hrest most)

theorem after_steps (hsim : Sim b least most S' r P) (h : Moves b n S S') :
    Sim b (least + n) (n + most) S r P := by
  obtain ⟨k, hmost, hfuel, hreach⟩ := hsim
  refine ⟨n + k, Nat.add_le_add_left hmost n, fun hr => ?_, fun s m hs => ?_⟩
  · have hk := hfuel hr
    omega
  · exact (h s m hs).bind (hreach s)

theorem after (hsim : Sim b least most S' r P) (h : Moves b n S S') :
    Sim b least (n + most) S r P :=
  (hsim.after_steps h).least_mono (Nat.le_add_right _ _)

theorem then_moves {Q : Scene b → α → Machine → Prop} (h : Sim b least most S r P)
    (next : ∀ a, r = .ok a → Moves b n (fun s => P s a) fun s => Q s a) :
    Sim b least (most + n) S r Q :=
  h.bind_const (fun a hr => hr ▸ of_moves (next a hr)) fun _ => id

theorem map {f : α → β} {Q : Scene b → β → Machine → Prop} (h : Sim b least most S r P)
    (hf : ∀ s a m, P s a m → Q s (f a) m) : Sim b least most S (r.map f) Q := by
  refine h.bind_const (k := 0) (fun a hr => ?_) fun e hr => by rw [hr]; rfl
  subst hr
  exact .ok fun s m hs => hf s a m hs

theorem reindex {Q : Scene b → α → Machine → Prop} (h : Sim b least most S' r P)
    (hscene : ∀ s m, S s m → ∃ s', S' s' m ∧ ∀ a m', P s' a m' → Q s a m') :
    Sim b least most S r Q := by
  obtain ⟨n, hmost, hfuel, hreach⟩ := h
  refine ⟨n, hmost, hfuel, fun s m hs => ?_⟩
  obtain ⟨s', hs', hback⟩ := hscene s m hs
  refine (hreach s' m hs').mono fun m' hm' => ?_
  cases r with
  | ok a => exact hback a m' hm'
  | error e => cases e <;> exact hm'

/-- Values that were pushed before stay. -/
theorem frame {ip ip' : Nat} {vs : List Value} {env : Env} {us : α → List Value} {env' : α → Env}
    (h : Sim b least most (Scene.Pushed ip vs env) r fun s a => s.Pushed ip' (us a) (env' a))
    (ts : List Value) :
    Sim b least most (Scene.Pushed ip (ts ++ vs) env) r
      fun s a => s.Pushed ip' (ts ++ us a) (env' a) := by
  refine h.reindex fun s m hs => ?_
  obtain ⟨words, heap, hext, hwords, hpushed⟩ := hs.split
  exact ⟨s.lifted words heap, hpushed, fun a m' h' => .join hext hwords h'⟩

end Sim

theorem Moves.frame {ip ip' : Nat} {us vs : List Value} {env env' : Env}
    (h : Moves b n (Scene.Pushed ip vs env) (Scene.Pushed ip' us env')) (ts : List Value) :
    Moves b n (Scene.Pushed ip (ts ++ vs) env) (Scene.Pushed ip' (ts ++ us) env') := by
  intro s m hs
  obtain ⟨words, heap, hext, hwords, hpushed⟩ := hs.split
  exact (h _ m hpushed).mono fun m' h' => .join hext hwords h'

end Rules

/-- The program is the encoding of instructions, and a word can hold every offset in it. -/
structure Binary.Runnable (b : Binary) : Prop where
  encoded : b.Encoded
  small : b.bytes.size < 2 ^ 63

theorem Binary.Runnable.end_lt {b : Binary} (hb : b.Runnable) {ip : Nat} {code : Code}
    (hp : b.Placed ip code) : ip + code.extent < b.bytes.size := by
  rw [← List.append_nil code] at hp
  obtain ⟨i, hi⟩ := (Binary.placed_append hp).2
  exact hb.encoded.lt hi

section Instructions

open Lowering

variable {b : Binary} {ip : Nat} {env : Env}

private theorem moves_words {n ip' : Nat} {us vs : List Value}
    (h : ∀ (m : Machine) (stack words : List Word) (heap : Heap), m.Hosts b →
      List.Forall₂ (Value.Rep heap) vs words →
        (m.poised ip (stack ++ words) heap).Reaches b n fun m' => ∃ words' heap',
          m' = m.poised ip' (stack ++ words') heap' ∧ heap.Extends heap' ∧
            List.Forall₂ (Value.Rep heap') us words') :
    Moves b n (Scene.Pushed ip vs env) (Scene.Pushed ip' us env) := by
  rintro s _ ⟨vars, words, heap, rfl, hext, hvars, hwords⟩
  refine (h s.machine _ words heap s.hosts hwords).mono ?_
  rintro _ ⟨words', heap', rfl, hext', hwords'⟩
  exact ⟨vars, words', heap', rfl, hext.trans hext', Value.forall₂_mono hext' hvars, hwords'⟩

theorem moves_push (hb : b.Runnable) {v : Int64} {u : Value}
    (hu : ∀ heap, u.Rep heap (.ofInt v)) (hp : b.Placed ip [push v]) :
    Moves b 1 (Scene.Pushed ip [] env) (Scene.Pushed (ip + Code.extent [push v]) [u] env) := by
  refine moves_words fun m stack words heap hm hwords => ?_
  cases hwords
  rw [List.append_nil]
  exact (Machine.reaches_push hb.encoded hm hp).mono fun m' hm' =>
    ⟨[.ofInt v], heap, hm', .refl heap, .cons (hu heap) .nil⟩

private theorem exists_word {heap : Heap} {v : Value} {words : List Word}
    (h : List.Forall₂ (Value.Rep heap) [v] words) : ∃ w, words = [w] ∧ v.Rep heap w := by
  cases h with
  | cons hw hrest =>
    cases hrest
    exact ⟨_, rfl, hw⟩

private theorem exists_words {heap : Heap} {u v : Value} {words : List Word}
    (h : List.Forall₂ (Value.Rep heap) [u, v] words) :
    ∃ x y, words = [x, y] ∧ u.Rep heap x ∧ v.Rep heap y := by
  cases h with
  | cons hx hrest =>
    obtain ⟨y, rfl, hy⟩ := exists_word hrest
    exact ⟨_, y, rfl, hx, hy⟩

theorem moves_pop (hb : b.Runnable) {v : Value} (hp : b.Placed ip [op .pop]) :
    Moves b 1 (Scene.Pushed ip [v] env) (Scene.Pushed (ip + Code.extent [op .pop]) [] env) := by
  refine moves_words fun m stack words heap hm hwords => ?_
  obtain ⟨w, rfl, _⟩ := exists_word hwords
  refine (Machine.reaches_pop hb.encoded hm hp).mono fun m' hm' => ⟨[], heap, ?_, .refl heap, .nil⟩
  rw [List.append_nil]
  exact hm'

theorem moves_swap (hb : b.Runnable) {u v : Value} (hp : b.Placed ip [op .swap]) :
    Moves b 1 (Scene.Pushed ip [u, v] env)
      (Scene.Pushed (ip + Code.extent [op .swap]) [v, u] env) := by
  refine moves_words fun m stack words heap hm hwords => ?_
  obtain ⟨x, y, rfl, hx, hy⟩ := exists_words hwords
  exact (Machine.reaches_swap hb.encoded hm hp).mono fun m' hm' =>
    ⟨[y, x], heap, hm', .refl heap, .cons hy (.cons hx .nil)⟩

theorem moves_intOp (hb : b.Runnable) {o : Opcode} {j : Instruction} {f : Int64 → Int64 → Int64}
    {l r : Int64} (hp : b.Placed ip [op o]) (hj : (Inst.plain o).resolve b.labels = .ok j)
    (hexec : Machine.exec j = Machine.intOp fun l r => pure (f l r)) :
    Moves b 1 (Scene.Pushed ip [.int l, .int r] env)
      (Scene.Pushed (ip + Code.extent [op o]) [.int (f l r)] env) := by
  refine moves_words fun m stack words heap hm hwords => ?_
  obtain ⟨_, _, rfl, rfl, rfl⟩ := exists_words hwords
  exact (Machine.reaches_intOp hb.encoded hm hp hj hexec).mono fun m' hm' =>
    ⟨[.ofInt (f l r)], heap, hm', .refl heap, .cons rfl .nil⟩

theorem moves_idiv (hb : b.Runnable) {l r : Int64} (hp : b.Placed ip [op .idiv]) (hr : r ≠ 0) :
    Moves b 1 (Scene.Pushed ip [.int l, .int r] env)
      (Scene.Pushed (ip + Code.extent [op .idiv]) [.int (l / r)] env) := by
  refine moves_words fun m stack words heap hm hwords => ?_
  obtain ⟨_, _, rfl, rfl, rfl⟩ := exists_words hwords
  exact (Machine.reaches_idiv hb.encoded hm hp hr).mono fun m' hm' =>
    ⟨[.ofInt (l / r)], heap, hm', .refl heap, .cons rfl .nil⟩

theorem divides_of_pushed (hb : b.Runnable) {l : Int64} (hp : b.Placed ip [op .idiv]) {s : Scene b}
    {m : Machine} (h : s.Pushed ip [.int l, .int 0] env m) : m.Divides b := by
  obtain ⟨vars, words, heap, rfl, _, _, hwords⟩ := h
  obtain ⟨_, _, rfl, rfl, rfl⟩ := exists_words hwords
  exact Machine.divides_idiv hb.encoded s.hosts hp

theorem moves_scat (hb : b.Runnable) {l r : String} (hp : b.Placed ip [op .scat]) :
    Moves b 1 (Scene.Pushed ip [.string l, .string r] env)
      (Scene.Pushed (ip + Code.extent [op .scat]) [.string (l ++ r)] env) := by
  refine moves_words fun m stack words heap hm hwords => ?_
  obtain ⟨x, y, rfl, hx, hy⟩ := exists_words hwords
  refine (Machine.reaches_scat hb.encoded hm hp hx hy).mono ?_
  rintro _ ⟨w, heap', rfl, hext, hw⟩
  refine ⟨[w], heap', rfl, hext, .cons ?_ .nil⟩
  rw [Value.Rep, String.toList_append, List.map_append]
  exact hw

/-- A block of words that stand for values stands for a value made of these. -/
theorem moves_pack (hb : b.Runnable) {count : Nat} {vs : List Value} {u : Value}
    (hu : ∀ heap w words, List.Forall₂ (Value.Rep heap) vs words → Machine.Holds heap w words →
      u.Rep heap w)
    (hp : b.Placed ip [pack count]) (hlength : vs.length = count) (hcount : count < 2 ^ 64) :
    Moves b 1 (Scene.Pushed ip vs env) (Scene.Pushed (ip + Code.extent [pack count]) [u] env) := by
  refine moves_words fun m stack words heap hm hwords => ?_
  obtain rfl : words.length = count := by rw [← hwords.length_eq, hlength]
  refine (Machine.reaches_pack hb.encoded hm hp hcount).mono ?_
  rintro _ ⟨w, heap', rfl, hext, hw⟩
  exact ⟨[w], heap', rfl, hext, .cons (hu heap' w words (Value.forall₂_mono hext hwords) hw) .nil⟩

private theorem exists_getElem? {heap : Heap} {vs : List Value} {words : List Word} {k : Nat}
    {v : Value} (h : List.Forall₂ (Value.Rep heap) vs words) (hv : vs[k]? = some v) :
    ∃ w, words[k]? = some w ∧ v.Rep heap w := by
  induction h generalizing k with
  | nil => simp at hv
  | cons hw _ ih =>
    cases k with
    | zero =>
      obtain rfl : _ = v := by simpa using hv
      exact ⟨_, rfl, hw⟩
    | succ k => exact ih hv

private theorem forall₂_set {heap : Heap} {vs : List Value} {words : List Word} (k : Nat)
    {v : Value} {w : Word} (h : List.Forall₂ (Value.Rep heap) vs words) (hw : v.Rep heap w) :
    List.Forall₂ (Value.Rep heap) (vs.set k v) (words.set k w) := by
  induction h generalizing k with
  | nil => exact .nil
  | cons hw' hrest ih =>
    cases k with
    | zero => exact .cons hw hrest
    | succ k => exact .cons hw' (ih k)

theorem moves_load (hb : b.Runnable) {k : Nat} {v : Value} (hp : b.Placed ip [.inst (.sload k)])
    (hk : k < 2 ^ 64) (hv : env.values[k]? = some v) :
    Moves b 1 (Scene.Pushed ip [] env)
      (Scene.Pushed (ip + Code.extent [.inst (.sload k)]) [v] env) := by
  rintro s _ ⟨vars, words, heap, rfl, hext, hvars, hwords⟩
  cases hwords
  obtain ⟨w, hw, hrep⟩ := exists_getElem? hvars hv
  have hlt := (List.getElem?_eq_some_iff.mp hw).1
  rw [List.append_nil]
  have hget : (s.below ++ vars ++ s.temps)[s.machine.fp + k]? = some w := by
    rw [s.base, List.append_assoc,
      List.getElem?_append_right (Nat.le_add_right _ _), Nat.add_sub_cancel_left,
      List.getElem?_append_left hlt, hw]
  exact (Machine.reaches_sload hb.encoded s.hosts hp hk hget).mono fun m' hm' =>
    ⟨vars, [w], heap, hm', hext, hvars, .cons hrep .nil⟩

theorem moves_store (hb : b.Runnable) {k : Nat} {v : Value} {env' : Env}
    (hp : b.Placed ip [.inst (.sstore k)]) (hk : k < 2 ^ 64) (hlt : k < env.values.length)
    (henv : env'.values = env.values.set k v) :
    Moves b 1 (Scene.Pushed ip [v] env)
      (Scene.Pushed (ip + Code.extent [.inst (.sstore k)]) [] env') := by
  rintro s _ ⟨vars, words, heap, rfl, hext, hvars, hwords⟩
  obtain ⟨w, rfl, hw⟩ := exists_word hwords
  have hlength : k < vars.length := by rwa [← hvars.length_eq]
  have hset : (s.below ++ vars ++ s.temps).set (s.machine.fp + k) w =
      s.below ++ vars.set k w ++ s.temps := by
    rw [s.base, List.append_assoc, List.set_append_right _ _ (Nat.le_add_right _ _),
      Nat.add_sub_cancel_left, List.set_append_left _ _ hlength, List.append_assoc]
  have hroom : s.machine.fp + k < (s.below ++ vars ++ s.temps).length := by
    simp only [List.length_append, s.base]
    omega
  refine (Machine.reaches_sstore hb.encoded s.hosts hp hk hroom).mono fun m' hm' => ?_
  refine ⟨vars.set k w, [], heap, ?_, hext, ?_, .nil⟩
  · rw [List.append_nil, ← hset]
    exact hm'
  · rw [henv]
    exact forall₂_set k hvars hw

theorem moves_jump (hb : b.Runnable) {name : String} {target : Nat} {vs : List Value}
    (hp : b.Placed ip [.inst (.jumpl name)]) (hname : b.labels.get name = .ok target)
    (htarget : ∃ i, b.Lists target i) :
    Moves b 1 (Scene.Pushed ip vs env) (Scene.Pushed target vs env) := by
  obtain ⟨i, hi⟩ := htarget
  have hlt := hb.encoded.lt hi
  have hsmall := hb.small
  refine moves_words fun m stack words heap hm hwords => ?_
  exact (Machine.reaches_jump hb.encoded hm hp hname ⟨i, hi⟩ (by omega)).mono fun m' hm' =>
    ⟨words, heap, hm', .refl heap, hwords⟩

theorem moves_jumpz_taken (hb : b.Runnable) {name : String} {target : Nat}
    (hp : b.Placed ip [.inst (.jumpzl name)]) (hname : b.labels.get name = .ok target)
    (htarget : ∃ i, b.Lists target i) :
    Moves b 1 (Scene.Pushed ip [.bool false] env) (Scene.Pushed target [] env) := by
  obtain ⟨i, hi⟩ := htarget
  have hlt := hb.encoded.lt hi
  have hsmall := hb.small
  refine moves_words fun m stack words heap hm hwords => ?_
  obtain ⟨_, rfl, rfl⟩ := exists_word hwords
  refine (Machine.reaches_jumpz_taken hb.encoded hm hp hname ⟨i, hi⟩ (by omega) rfl).mono
    fun m' hm' => ⟨[], heap, ?_, .refl heap, .nil⟩
  rw [List.append_nil]
  exact hm'

theorem moves_jumpz_passed (hb : b.Runnable) {name : String} {target : Nat}
    (hp : b.Placed ip [.inst (.jumpzl name)]) (hname : b.labels.get name = .ok target) :
    Moves b 1 (Scene.Pushed ip [.bool true] env)
      (Scene.Pushed (ip + Code.extent [.inst (.jumpzl name)]) [] env) := by
  refine moves_words fun m stack words heap hm hwords => ?_
  obtain ⟨_, rfl, rfl⟩ := exists_word hwords
  refine (Machine.reaches_jumpz_passed hb.encoded hm hp hname rfl).mono
    fun m' hm' => ⟨[], heap, ?_, .refl heap, .nil⟩
  rw [List.append_nil]
  exact hm'

end Instructions
end EdeLang
