import EdeLang.Machine.Heap
import Mathlib.Algebra.BigOperators.Fin
import Mathlib.Data.Finmap

/-!
# The heap as a finite map

A heap answers every history of calls as a finite map from handles to words does that counts its
allocations: the map gets a new number with each block and forgets it when the block is freed. The
only calls that the map does not answer alike are those that the host cannot serve.
-/

namespace EdeLang

namespace Heap

/-- A call of a heap. -/
inductive Call where
  | alloc (block : Array Word)
  | allocZeroed (count : Nat)
  | free (handle : Int64)
  | get (handle : Int64)
  | load (handle index : Int64)
  | store (handle index : Int64) (value : Word)

inductive Answer where
  | handle (handle : Int64)
  | words (words : List Word)
  | word (w : Word)
  | done
deriving DecidableEq

/-- The answer of an operation with the state after it, which is the one before it if it failed. -/
def outcome {σ : Type} (s : σ) : Except Fault (Answer × σ) → Except Fault Answer × σ
  | .ok (a, s') => (.ok a, s')
  | .error e => (.error e, s)

def perform (h : Heap) : Call → Except Fault Answer × Heap
  | .alloc block => outcome h ((h.alloc block).map fun r => (.handle r.2, r.1))
  | .allocZeroed count => outcome h ((h.allocZeroed count).map fun r => (.handle r.2, r.1))
  | .free handle => outcome h ((h.free handle).map fun h' => (.done, h'))
  | .get handle => outcome h ((h.get handle).map fun block => (.words block.toList, h))
  | .load handle index => outcome h ((h.load handle index).map fun w => (.word w, h))
  | .store handle index value => outcome h ((h.store handle index value).map fun h' => (.done, h'))

section Histories

variable {σ : Type} (perform : σ → Call → Except Fault Answer × σ)

def after (s : σ) : List Call → σ
  | [] => s
  | c :: cs => after (perform s c).2 cs

def answers (s : σ) : List Call → List (Except Fault Answer)
  | [] => []
  | c :: cs => (perform s c).1 :: answers (perform s c).2 cs

theorem after_append (s : σ) (cs ds : List Call) :
    after perform s (cs ++ ds) = after perform (after perform s cs) ds := by
  induction cs generalizing s with
  | nil => rfl
  | cons c cs ih => exact ih (perform s c).2

theorem answers_append (s : σ) (cs ds : List Call) :
    answers perform s (cs ++ ds) =
      answers perform s cs ++ answers perform (after perform s cs) ds := by
  induction cs generalizing s with
  | nil => rfl
  | cons c cs ih => exact congrArg ((perform s c).1 :: ·) (ih (perform s c).2)

end Histories

def handle? : Except Fault Answer → Option Int64
  | .ok (.handle handle) => some handle
  | _ => none

end Heap

open Heap

/-- Words by the number of their handle, and how many numbers have been given. -/
structure BlockMap where
  blocks : Finmap fun _ : Int => List Word
  count : Nat
  limit : Nat

namespace BlockMap

def empty (limit : Nat) : BlockMap := ⟨∅, 0, limit⟩

def wordCount (blocks : Finmap fun _ : Int => List Word) : Nat :=
  (blocks.entries.map fun e => e.2.length).sum

/-- Words in all blocks. -/
def total (s : BlockMap) : Nat := wordCount s.blocks

def alloc (s : BlockMap) (words : List Word) : Except Fault Answer × BlockMap :=
  if s.limit < s.total + words.length then (.error (.heapExhausted s.limit), s)
  else
    (.ok (.handle (Int64.ofNat (s.count + 1))),
      ⟨s.blocks.insert (s.count + 1) words, s.count + 1, s.limit⟩)

def perform (s : BlockMap) : Call → Except Fault Answer × BlockMap
  | .alloc block => s.alloc block.toList
  | .allocZeroed count => s.alloc (List.replicate count Word.zero)
  | .free handle =>
    match s.blocks.lookup handle.toInt with
    | none => (.error (.invalidHandle handle), s)
    | some _ => (.ok .done, { s with blocks := s.blocks.erase handle.toInt })
  | .get handle =>
    match s.blocks.lookup handle.toInt with
    | none => (.error (.invalidHandle handle), s)
    | some words => (.ok (.words words), s)
  | .load handle index =>
    match s.blocks.lookup handle.toInt with
    | none => (.error (.invalidHandle handle), s)
    | some words =>
      if 0 ≤ index.toInt ∧ index.toInt < words.length then
        (.ok (.word (words.getD index.toInt.toNat Word.zero)), s)
      else (.error (.heapIndexOutOfBounds handle index), s)
  | .store handle index value =>
    match s.blocks.lookup handle.toInt with
    | none => (.error (.invalidHandle handle), s)
    | some words =>
      if 0 ≤ index.toInt ∧ index.toInt < words.length then
        (.ok .done,
          { s with blocks := s.blocks.insert handle.toInt (words.set index.toInt.toNat value) })
      else (.error (.heapIndexOutOfBounds handle index), s)

section WordCount

variable {blocks : Finmap fun _ : Int => List Word} {k : Int} {words : List Word}

theorem wordCount_insert (h : k ∉ blocks) (words : List Word) :
    wordCount (blocks.insert k words) = wordCount blocks + words.length := by
  rw [wordCount, Finmap.entries_insert_of_notMem h, Multiset.map_cons, Multiset.sum_cons,
    Nat.add_comm]
  rfl

theorem insert_erase (k : Int) (words : List Word) :
    (blocks.erase k).insert k words = blocks.insert k words := by
  apply Finmap.ext_lookup
  intro j
  by_cases hj : j = k
  · subst hj
    rw [Finmap.lookup_insert, Finmap.lookup_insert]
  · rw [Finmap.lookup_insert_of_ne _ hj, Finmap.lookup_insert_of_ne _ hj,
      Finmap.lookup_erase_ne hj]

theorem insert_lookup (h : blocks.lookup k = some words) : blocks.insert k words = blocks := by
  apply Finmap.ext_lookup
  intro j
  by_cases hj : j = k
  · subst hj
    rw [Finmap.lookup_insert, h]
  · rw [Finmap.lookup_insert_of_ne _ hj]

theorem wordCount_erase (h : blocks.lookup k = some words) :
    wordCount (blocks.erase k) + words.length = wordCount blocks := by
  have hcount : wordCount ((blocks.erase k).insert k words) =
      wordCount (blocks.erase k) + words.length := wordCount_insert Finmap.notMem_erase_self words
  rw [insert_erase, insert_lookup h] at hcount
  exact hcount.symm

theorem wordCount_replace {words' : List Word} (h : blocks.lookup k = some words)
    (hlength : words'.length = words.length) :
    wordCount (blocks.insert k words') = wordCount blocks := by
  have hcount : wordCount ((blocks.erase k).insert k words') =
      wordCount (blocks.erase k) + words'.length := wordCount_insert Finmap.notMem_erase_self words'
  have herase := wordCount_erase h
  rw [insert_erase] at hcount
  omega

end WordCount

theorem perform_ne_panic (s : BlockMap) (c : Call) (p : Panic) :
    (s.perform c).1 ≠ .error (.panic p) := by
  cases c <;> simp only [perform, alloc] <;> (repeat' split) <;> simp

/-- A call hands out the next number, or no handle. -/
theorem perform_handle (s : BlockMap) (c : Call) :
    ((s.perform c).1 = .ok (.handle (Int64.ofNat (s.count + 1))) ∧
      (s.perform c).2.count = s.count + 1) ∨
    (handle? (s.perform c).1 = none ∧ (s.perform c).2.count = s.count) := by
  cases c <;> simp only [perform, alloc] <;> (repeat' split) <;> simp [handle?]

theorem after_limit (s : BlockMap) (calls : List Call) :
    (after perform s calls).limit = s.limit := by
  have hstep : ∀ (s : BlockMap) (c : Call), (s.perform c).2.limit = s.limit := by
    intro s c
    cases c <;> simp only [perform, alloc] <;> (repeat' split) <;> rfl
  induction calls generalizing s with
  | nil => rfl
  | cons c calls ih => exact (ih (s.perform c).2).trans (hstep s c)

/-- The number has been given and its block has been freed. -/
def Gone (s : BlockMap) (k : Int) : Prop := k ≤ s.count ∧ k ∉ s.blocks

theorem Gone.alloc {s : BlockMap} {k : Int} (h : s.Gone k) (words : List Word) :
    (s.alloc words).2.Gone k := by
  unfold BlockMap.alloc
  split
  · exact h
  · have hle := h.1
    have hne : k ≠ s.count + 1 := by omega
    refine ⟨by simp only [Nat.cast_add, Nat.cast_one]; omega, ?_⟩
    simp only [Finmap.mem_insert, not_or]
    exact ⟨hne, h.2⟩

theorem Gone.perform {s : BlockMap} {k : Int} (h : s.Gone k) (c : Call) :
    (s.perform c).2.Gone k := by
  cases c with
  | alloc block => exact h.alloc block.toList
  | allocZeroed count => exact h.alloc _
  | free handle =>
    simp only [BlockMap.perform]
    split
    · exact h
    · exact ⟨h.1, fun hmem => h.2 (Finmap.mem_erase.mp hmem).2⟩
  | get handle =>
    simp only [BlockMap.perform]
    split <;> exact h
  | load handle index =>
    simp only [BlockMap.perform]
    split
    · exact h
    · split <;> exact h
  | store handle index value =>
    simp only [BlockMap.perform]
    split
    · exact h
    · next words hlookup =>
      split
      · refine ⟨h.1, fun hmem => h.2 ?_⟩
        rcases Finmap.mem_insert.mp hmem with rfl | hold
        · exact Finmap.mem_of_lookup_eq_some hlookup
        · exact hold
      · exact h

theorem Gone.after {s : BlockMap} {k : Int} (h : s.Gone k) (calls : List Call) :
    (Heap.after BlockMap.perform s calls).Gone k := by
  induction calls generalizing s with
  | nil => exact h
  | cons c calls ih => exact ih (h.perform c)

/-- The handles that are handed out are numbered one by one. -/
theorem handles_answers (s : BlockMap) (calls : List Call) :
    ∃ n, n ≤ calls.length ∧ (after perform s calls).count = s.count + n ∧
      (answers perform s calls).filterMap handle? =
        (List.range' (s.count + 1) n).map Int64.ofNat := by
  induction calls generalizing s with
  | nil => exact ⟨0, Nat.le_refl 0, rfl, rfl⟩
  | cons c calls ih =>
    obtain ⟨n, hn, hcount, hhandles⟩ := ih (s.perform c).2
    simp only [after, answers, List.length_cons]
    rcases s.perform_handle c with ⟨hanswer, hnext⟩ | ⟨hanswer, hnext⟩
    · refine ⟨n + 1, by omega, by omega, ?_⟩
      rw [List.filterMap_cons, hanswer, List.range'_succ, List.map_cons]
      simp only [handle?, hhandles, hnext]
    · refine ⟨n, by omega, by omega, ?_⟩
      rw [List.filterMap_cons, hanswer, hhandles, hnext]

end BlockMap

namespace Heap

/-- The live block whose handle has a number. -/
def at? (h : Heap) (k : Int) : Option (Array Word) :=
  if 1 ≤ k then (h.blocks[k.toNat - 1]?).join else none

theorem block?_eq_at? (h : Heap) (handle : Int64) : h.block? handle = h.at? handle.toInt := by
  by_cases hpos : 1 ≤ handle.toInt <;> simp [block?, index?, at?, hpos]

theorem at?_eq_some_iff {h : Heap} {k : Int} {block : Array Word} :
    h.at? k = some block ↔ 1 ≤ k ∧ h.blocks[k.toNat - 1]? = some (some block) := by
  by_cases hpos : 1 ≤ k <;> simp [at?, hpos, Option.join_eq_some_iff]

theorem le_size_of_at? {h : Heap} {k : Int} {block : Array Word} (hk : h.at? k = some block) :
    1 ≤ k ∧ k ≤ h.blocks.size := by
  obtain ⟨hpos, hget⟩ := at?_eq_some_iff.mp hk
  have hlt := (Array.getElem?_eq_some_iff.mp hget).1
  omega

theorem at?_push (h : Heap) (block : Array Word) (used : Nat) (k : Int) :
    at? ⟨h.blocks.push (some block), used, h.limit⟩ k =
      if k = h.blocks.size + 1 then some block else h.at? k := by
  by_cases hpos : 1 ≤ k
  · have hplace : k.toNat - 1 = h.blocks.size ↔ k = h.blocks.size + 1 := by omega
    simp only [at?, if_pos hpos, Array.getElem?_push, hplace]
    split <;> rfl
  · have hne : k ≠ h.blocks.size + 1 := by omega
    simp only [at?, if_neg hpos, if_neg hne]

theorem at?_modify {h : Heap} {k : Int} {block : Array Word} (hk : h.at? k = some block)
    (f : Option (Array Word) → Option (Array Word)) (used : Nat) (j : Int) :
    at? ⟨h.blocks.modify (k.toNat - 1) f, used, h.limit⟩ j =
      if j = k then f (some block) else h.at? j := by
  obtain ⟨hpos, hget⟩ := at?_eq_some_iff.mp hk
  by_cases hj : 1 ≤ j
  · have hplace : k.toNat - 1 = j.toNat - 1 ↔ j = k := by omega
    simp only [at?, if_pos hj, Array.getElem?_modify, hplace]
    split
    · next hsame =>
      rw [hsame, hget]
      rfl
    · rfl
  · have hne : j ≠ k := by omega
    simp only [at?, if_neg hj, if_neg hne]

section Operations

variable {h : Heap} {handle index : Int64} {value : Word} {block : Array Word}

theorem get_of_block (hb : h.block? handle = some block) : h.get handle = .ok block := by
  simp only [get, hb]

theorem get_of_none (hb : h.block? handle = none) :
    h.get handle = .error (.invalidHandle handle) := by
  simp only [get, hb]

theorem index?_of_block (hb : h.block? handle = some block) :
    index? handle = some (handle.toInt.toNat - 1) ∧
      h.blocks[handle.toInt.toNat - 1]? = some (some block) := by
  rw [block?_eq_at?, at?_eq_some_iff] at hb
  exact ⟨by simp [index?, hb.1], hb.2⟩

theorem free_of_block (hb : h.block? handle = some block) (hle : block.size ≤ h.used) :
    h.free handle =
      .ok ⟨h.blocks.modify (handle.toInt.toNat - 1) fun _ => none, h.used - block.size, h.limit⟩ := by
  obtain ⟨hindex, hget⟩ := index?_of_block hb
  have hset : h.blocks.setIfInBounds (handle.toInt.toNat - 1) none =
      h.blocks.modify (handle.toInt.toNat - 1) fun _ => none := by
    apply Array.ext_getElem?
    intro i
    rw [Array.getElem?_setIfInBounds, Array.getElem?_modify]
    have hlt := (Array.getElem?_eq_some_iff.mp hget).1
    split
    · next hi =>
      rw [hi] at hlt
      simp [hlt]
    · rfl
  simp only [free, hindex, hget, Option.join_some, difference_of_le hle, hset]

theorem free_of_none (hb : h.block? handle = none) :
    h.free handle = .error (.invalidHandle handle) := by
  unfold block? at hb
  unfold free
  split at hb
  · next i hi => simp only [hi, hb]
  · next hi => simp only [hi]

theorem load_of_none (hb : h.block? handle = none) :
    h.load handle index = .error (.invalidHandle handle) := by
  simp only [load, get_of_none hb]

theorem load_of_block (hb : h.block? handle = some block) :
    h.load handle index =
      if 0 ≤ index.toInt ∧ index.toInt < block.size then
        .ok (block.getD index.toInt.toNat Word.zero)
      else .error (.heapIndexOutOfBounds handle index) := by
  have hbound : (0 ≤ index.toInt ∧ index.toInt.toNat < block.size) ↔
      0 ≤ index.toInt ∧ index.toInt < block.size := by omega
  by_cases hin : 0 ≤ index.toInt ∧ index.toInt < block.size
  · simp only [load, get_of_block hb, cell?, hbound, if_pos hin]
  · simp only [load, get_of_block hb, cell?, hbound, if_neg hin]

theorem store_of_block (hb : h.block? handle = some block) :
    h.store handle index value =
      if 0 ≤ index.toInt ∧ index.toInt < block.size then
        .ok ⟨h.blocks.modify (handle.toInt.toNat - 1) fun b =>
          b.map (·.setIfInBounds index.toInt.toNat value), h.used, h.limit⟩
      else .error (.heapIndexOutOfBounds handle index) := by
  have hbound : (0 ≤ index.toInt ∧ index.toInt.toNat < block.size) ↔
      0 ≤ index.toInt ∧ index.toInt < block.size := by omega
  obtain ⟨hindex, hget⟩ := index?_of_block hb
  by_cases hin : 0 ≤ index.toInt ∧ index.toInt < block.size
  · simp only [store, hindex, hget, Option.join_some, cell?, hbound, if_pos hin]
  · simp only [store, hindex, hget, Option.join_some, cell?, hbound, if_neg hin]

theorem store_of_none (hb : h.block? handle = none) :
    h.store handle index value = .error (.invalidHandle handle) := by
  unfold block? at hb
  unfold store
  split at hb
  · next i hi => simp only [hi, hb]
  · next hi => simp only [hi]

end Operations

/-- The heap holds the blocks of the map, has given as many handles, and counts its words. -/
structure Refines (h : Heap) (s : BlockMap) : Prop where
  limit_eq : h.limit = s.limit
  size_eq : h.blocks.size = s.count
  lookup_eq : ∀ k, s.blocks.lookup k = (h.at? k).map Array.toList
  used_eq : h.used = s.total

/-- The call asks for more words than a block of the host can have, and the limit admits them. -/
def Exceeds (h : Heap) (c : Call) : Prop :=
  ∃ count, c = .allocZeroed count ∧ maxBlock < count ∧ h.used + count ≤ h.limit

theorem refines_empty (limit : Nat) : (Heap.empty limit).Refines (BlockMap.empty limit) where
  limit_eq := rfl
  size_eq := rfl
  lookup_eq k := by simp [BlockMap.empty, at?, Heap.empty]
  used_eq := rfl

section Refines

variable {h : Heap} {s : BlockMap}

theorem Refines.lookup_block (hr : h.Refines s) (handle : Int64) :
    s.blocks.lookup handle.toInt = (h.block? handle).map Array.toList := by
  rw [hr.lookup_eq, block?_eq_at?]

theorem Refines.fresh (hr : h.Refines s) : (s.count + 1 : Int) ∉ s.blocks := by
  rw [← Finmap.lookup_eq_none, hr.lookup_eq, ← hr.size_eq]
  simp [at?]

theorem Refines.size_le_used (hr : h.Refines s) {handle : Int64} {block : Array Word}
    (hb : h.block? handle = some block) : block.size ≤ h.used := by
  have hlookup : s.blocks.lookup handle.toInt = some block.toList := by
    rw [hr.lookup_block, hb]
    rfl
  have hcount := BlockMap.wordCount_erase hlookup
  rw [hr.used_eq, BlockMap.total]
  simp only [Array.length_toList] at hcount
  omega

theorem Refines.allocWith (hr : h.Refines s) {size : Nat} (block : Unit → Array Word)
    (hsize : (block ()).size = size) :
    let r := outcome h ((h.allocWith size block).map fun r => (.handle r.2, r.1))
    r.1 = (s.alloc (block ()).toList).1 ∧ r.2.Refines (s.alloc (block ()).toList).2 := by
  have hlength : (block ()).toList.length = size := by rw [Array.length_toList, hsize]
  by_cases hroom : h.used + size ≤ h.limit
  · have hfits : ¬ s.limit < s.total + (block ()).toList.length := by
      rw [hlength, ← hr.used_eq, ← hr.limit_eq]
      omega
    simp only [Heap.allocWith, if_pos hroom, BlockMap.alloc, if_neg hfits, Except.map, outcome]
    refine ⟨by rw [hr.size_eq], ⟨hr.limit_eq, by simp [hr.size_eq], fun k => ?_, ?_⟩⟩
    · rw [at?_push, hr.size_eq]
      by_cases hk : k = s.count + 1
      · rw [if_pos hk, hk, Finmap.lookup_insert]
        rfl
      · rw [if_neg hk, Finmap.lookup_insert_of_ne _ hk, hr.lookup_eq]
    · rw [BlockMap.total, BlockMap.wordCount_insert hr.fresh, hlength, hr.used_eq, BlockMap.total]
  · have hfull : s.limit < s.total + (block ()).toList.length := by
      rw [hlength, ← hr.used_eq, ← hr.limit_eq]
      omega
    simp only [Heap.allocWith, if_neg hroom, BlockMap.alloc, if_pos hfull, Except.map, outcome]
    exact ⟨by rw [hr.limit_eq], hr⟩

theorem Refines.free (hr : h.Refines s) {handle : Int64} {block : Array Word}
    (hb : h.block? handle = some block) :
    Refines ⟨h.blocks.modify (handle.toInt.toNat - 1) fun _ => none, h.used - block.size, h.limit⟩
      { s with blocks := s.blocks.erase handle.toInt } := by
  have hat : h.at? handle.toInt = some block := by rw [← block?_eq_at?, hb]
  refine ⟨hr.limit_eq, by simp [hr.size_eq], fun k => ?_, ?_⟩
  · rw [at?_modify hat]
    by_cases hk : k = handle.toInt
    · rw [if_pos hk, hk, Finmap.lookup_erase]
      rfl
    · rw [if_neg hk, Finmap.lookup_erase_ne hk, hr.lookup_eq]
  · have hlookup : s.blocks.lookup handle.toInt = some block.toList := by
      rw [hr.lookup_block, hb]
      rfl
    have hcount := BlockMap.wordCount_erase hlookup
    have hused := hr.used_eq
    simp only [BlockMap.total, Array.length_toList] at hcount hused ⊢
    omega

theorem Refines.store (hr : h.Refines s) {handle : Int64} {block : Array Word}
    (hb : h.block? handle = some block) (k : Nat) (value : Word) :
    Refines ⟨h.blocks.modify (handle.toInt.toNat - 1) fun b => b.map (·.setIfInBounds k value),
        h.used, h.limit⟩
      { s with blocks := s.blocks.insert handle.toInt (block.toList.set k value) } := by
  have hat : h.at? handle.toInt = some block := by rw [← block?_eq_at?, hb]
  refine ⟨hr.limit_eq, by simp [hr.size_eq], fun j => ?_, ?_⟩
  · rw [at?_modify hat]
    by_cases hj : j = handle.toInt
    · rw [if_pos hj, hj, Finmap.lookup_insert]
      simp
    · rw [if_neg hj, Finmap.lookup_insert_of_ne _ hj, hr.lookup_eq]
  · have hlookup : s.blocks.lookup handle.toInt = some block.toList := by
      rw [hr.lookup_block, hb]
      rfl
    have hlength : (block.toList.set k value).length = block.toList.length := List.length_set
    have hcount := BlockMap.wordCount_replace hlookup hlength
    rw [BlockMap.total, hcount, hr.used_eq, BlockMap.total]

/-- Both give one answer to a call that the host can serve, and stay alike. -/
theorem Refines.perform (hr : h.Refines s) {c : Call} (hc : ¬ h.Exceeds c) :
    (h.perform c).1 = (s.perform c).1 ∧ (h.perform c).2.Refines (s.perform c).2 := by
  cases c with
  | alloc block => exact hr.allocWith (fun _ => block) rfl
  | allocZeroed count =>
    have hsmall : ¬ (h.used + count ≤ h.limit ∧ maxBlock < count) :=
      fun hlarge => hc ⟨count, rfl, hlarge.2, hlarge.1⟩
    have hboth := hr.allocWith (fun _ => Array.replicate count Word.zero) Array.size_replicate
    simpa only [Heap.perform, BlockMap.perform, allocZeroed, if_neg hsmall,
      Array.toList_replicate] using hboth
  | free handle =>
    simp only [Heap.perform, BlockMap.perform, hr.lookup_block]
    cases hb : h.block? handle with
    | none =>
      rw [free_of_none hb]
      exact ⟨rfl, hr⟩
    | some block =>
      rw [free_of_block hb (hr.size_le_used hb)]
      exact ⟨rfl, hr.free hb⟩
  | get handle =>
    simp only [Heap.perform, BlockMap.perform, hr.lookup_block]
    cases hb : h.block? handle with
    | none =>
      rw [get_of_none hb]
      exact ⟨rfl, hr⟩
    | some block =>
      rw [get_of_block hb]
      exact ⟨rfl, hr⟩
  | load handle index =>
    simp only [Heap.perform, BlockMap.perform, hr.lookup_block]
    cases hb : h.block? handle with
    | none =>
      rw [load_of_none hb]
      exact ⟨rfl, hr⟩
    | some block =>
      simp only [load_of_block hb, Option.map_some, Array.length_toList]
      split
      · exact ⟨by simp [outcome, Except.map], hr⟩
      · exact ⟨rfl, hr⟩
  | store handle index value =>
    simp only [Heap.perform, BlockMap.perform, hr.lookup_block]
    cases hb : h.block? handle with
    | none =>
      rw [store_of_none hb]
      exact ⟨rfl, hr⟩
    | some block =>
      simp only [store_of_block hb, Option.map_some, Array.length_toList]
      split
      · exact ⟨rfl, hr.store hb index.toInt.toNat value⟩
      · exact ⟨rfl, hr⟩

/-- The host fails a call only if it exceeds what a block can have. -/
theorem Refines.panic_iff (hr : h.Refines s) (c : Call) (p : Panic) :
    (h.perform c).1 = .error (.panic p) ↔ p = .capacity ∧ h.Exceeds c := by
  by_cases hc : h.Exceeds c
  · obtain ⟨count, rfl, hlarge⟩ := id hc
    simp only [Heap.perform, allocZeroed, if_pos hlarge.symm, Except.map, outcome, hc, and_true]
    constructor
    · intro hp
      cases hp
      rfl
    · rintro rfl
      rfl
  · rw [(hr.perform hc).1]
    exact ⟨fun hp => absurd hp (s.perform_ne_panic c p), fun hp => absurd hp.2 hc⟩

theorem Refines.answers (calls : List Call) {h : Heap} {s : BlockMap} (hr : h.Refines s)
    (hserved : ∀ p, .error (.panic p) ∉ Heap.answers Heap.perform h calls) :
    Heap.answers Heap.perform h calls = Heap.answers BlockMap.perform s calls ∧
      (after Heap.perform h calls).Refines (after BlockMap.perform s calls) := by
  induction calls generalizing h s with
  | nil => exact ⟨rfl, hr⟩
  | cons c calls ih =>
    have hc : ¬ h.Exceeds c := by
      intro hc
      have hpanic : (h.perform c).1 = .error (.panic .capacity) :=
        (hr.panic_iff c .capacity).mpr ⟨rfl, hc⟩
      exact hserved .capacity (hpanic ▸ List.mem_cons_self)
    have hrest : ∀ p, .error (.panic p) ∉ Heap.answers Heap.perform (h.perform c).2 calls :=
      fun p hp => hserved p (List.mem_cons_of_mem _ hp)
    obtain ⟨hanswer, hr'⟩ := hr.perform hc
    obtain ⟨hanswers, hafter⟩ := ih hr' hrest
    exact ⟨congrArg₂ List.cons hanswer hanswers, hafter⟩

end Refines

theorem mem_liveFrom {blocks : List (Option (Array Word))} {handle n : Nat} {block : Array Word} :
    (n, block) ∈ liveFrom handle blocks ↔
      handle ≤ n ∧ blocks[n - handle]? = some (some block) := by
  induction blocks generalizing handle with
  | nil => simp [liveFrom]
  | cons b blocks ih =>
    have hrest : (handle + 1 ≤ n ∧ blocks[n - (handle + 1)]? = some (some block)) ↔
        handle < n ∧ (b :: blocks)[n - handle]? = some (some block) := by
      refine and_congr_right fun hlt => ?_
      rw [show n - handle = n - (handle + 1) + 1 by omega, List.getElem?_cons_succ]
    cases b with
    | none =>
      rw [liveFrom, ih, hrest]
      constructor
      · rintro ⟨hlt, hget⟩
        exact ⟨Nat.le_of_lt hlt, hget⟩
      · rintro ⟨hle, hget⟩
        rcases Nat.eq_or_lt_of_le hle with rfl | hlt
        · simp at hget
        · exact ⟨hlt, hget⟩
    | some first =>
      rw [liveFrom, List.mem_cons, ih, hrest]
      constructor
      · rintro (heq | ⟨hlt, hget⟩)
        · cases heq
          simp
        · exact ⟨Nat.le_of_lt hlt, hget⟩
      · rintro ⟨hle, hget⟩
        rcases Nat.eq_or_lt_of_le hle with rfl | hlt
        · left
          simpa [eq_comm] using hget
        · exact .inr ⟨hlt, hget⟩

theorem pairwise_liveFrom (blocks : List (Option (Array Word))) (handle : Nat) :
    (liveFrom handle blocks).Pairwise fun a b => a.1 < b.1 := by
  induction blocks generalizing handle with
  | nil => exact .nil
  | cons b blocks ih =>
    cases b with
    | none => exact ih (handle + 1)
    | some first =>
      refine List.pairwise_cons.mpr ⟨fun e he => ?_, ih (handle + 1)⟩
      exact (mem_liveFrom.mp he).1

theorem mem_live {h : Heap} {n : Nat} {block : Array Word} :
    (n, block) ∈ h.live ↔ h.at? n = some block := by
  have hpos : 1 ≤ (n : Int) ↔ 1 ≤ n := by omega
  rw [live, mem_liveFrom, at?_eq_some_iff, Array.getElem?_toList, hpos, Int.toNat_natCast]

theorem Refines.mem_live {h : Heap} {s : BlockMap} (hr : h.Refines s) (k : Int)
    (words : List Word) : (k, words) ∈ h.live.map (fun e => ((e.1 : Int), e.2.toList)) ↔
      s.blocks.lookup k = some words := by
  rw [hr.lookup_eq, Option.map_eq_some_iff, List.mem_map]
  constructor
  · rintro ⟨⟨n, block⟩, hmem, heq⟩
    cases heq
    exact ⟨block, Heap.mem_live.mp hmem, rfl⟩
  · rintro ⟨block, hat, rfl⟩
    obtain ⟨hpos, _⟩ := le_size_of_at? hat
    have hnat : ((k.toNat : Nat) : Int) = k := Int.toNat_of_nonneg (by omega)
    refine ⟨(k.toNat, block), Heap.mem_live.mpr ?_, ?_⟩
    · rw [hnat, hat]
    · rw [hnat]

theorem perform_error {h : Heap} {c : Call} {e : Fault} (hc : (h.perform c).1 = .error e) :
    (h.perform c).2 = h := by
  have houtcome : ∀ r : Except Fault (Answer × Heap), (outcome h r).1 = .error e →
      (outcome h r).2 = h := by
    intro r hr
    cases r with
    | error e' => rfl
    | ok a => simp [outcome] at hr
  cases c <;> exact houtcome _ hc

theorem Refines.gone_of_free {h : Heap} {s : BlockMap} (hr : h.Refines s) {handle : Int64}
    (hfree : (h.perform (.free handle)).1 = .ok .done) :
    (s.perform (.free handle)).2.Gone handle.toInt := by
  cases hb : h.block? handle with
  | none => simp [Heap.perform, free_of_none hb, Except.map, outcome] at hfree
  | some block =>
    have hat : h.at? handle.toInt = some block := by rw [← block?_eq_at?, hb]
    have hle := (le_size_of_at? hat).2
    rw [hr.size_eq] at hle
    simp only [BlockMap.perform, hr.lookup_block, hb, Option.map_some]
    exact ⟨hle, Finmap.notMem_erase_self⟩

theorem Refines.get_of_gone {h : Heap} {s : BlockMap} (hr : h.Refines s) {handle : Int64}
    (hgone : s.Gone handle.toInt) : h.get handle = .error (.invalidHandle handle) := by
  have hlookup := Finmap.lookup_eq_none.mpr hgone.2
  rw [hr.lookup_block, Option.map_eq_none_iff] at hlookup
  exact get_of_none hlookup

/-- A number that was given is not given again, as long as handles are not used up. -/
theorem not_mem_answers_of_gone {s : BlockMap} {handle : Int64} (hgone : s.Gone handle.toInt)
    {calls : List Call} (hcount : s.count + calls.length < 2 ^ 63) :
    .ok (.handle handle) ∉ answers BlockMap.perform s calls := by
  intro hmem
  obtain ⟨n, hn, -, hhandles⟩ := s.handles_answers calls
  have hgiven : handle ∈ (answers BlockMap.perform s calls).filterMap handle? :=
    List.mem_filterMap.mpr ⟨_, hmem, rfl⟩
  rw [hhandles] at hgiven
  obtain ⟨k, hk, rfl⟩ := List.mem_map.mp hgiven
  have hrange := List.mem_range'_1.mp hk
  have hle := hgone.1
  rw [Int64.toInt_ofNat_of_lt (by omega)] at hle
  omega

/-- To every history of calls that the host can serve, the heap gives the answers of the map. Its
handles are the numbers from one on, its count is that of the words of the map, and it lists the
blocks of the map in the order of their handles. A call that fails with a result leaves it as it is.
A freed handle is not valid again and not handed out again. The host panics if a call asks for more
than a block can have; that it has no more room for the list of blocks itself is outside. -/
theorem answers_refine (limit : Nat) (calls : List Call)
    (hserved : ∀ p, .error (.panic p) ∉ answers Heap.perform (Heap.empty limit) calls) :
    let h := after Heap.perform (Heap.empty limit) calls
    let s := after BlockMap.perform (BlockMap.empty limit) calls
    answers Heap.perform (Heap.empty limit) calls =
      answers BlockMap.perform (BlockMap.empty limit) calls ∧
    (answers Heap.perform (Heap.empty limit) calls).filterMap handle? =
      (List.range' 1 s.count).map Int64.ofNat ∧
    h.used = s.total ∧
    (∀ k words, (k, words) ∈ h.live.map (fun e => ((e.1 : Int), e.2.toList)) ↔
      s.blocks.lookup k = some words) ∧
    (h.live.Pairwise fun a b => a.1 < b.1) ∧
    (∀ c e, (h.perform c).1 = .error e → (∀ p, e ≠ .panic p) → (h.perform c).2 = h) ∧
    (∀ before handle later, calls = before ++ .free handle :: later →
      ((after Heap.perform (Heap.empty limit) before).perform (.free handle)).1 = .ok .done →
        h.get handle = .error (.invalidHandle handle) ∧
        (calls.length < 2 ^ 63 → .ok (.handle handle) ∉
          answers Heap.perform (after Heap.perform (Heap.empty limit) (before ++ [.free handle]))
            later)) ∧
    (∀ c p, (h.perform c).1 = .error (.panic p) ↔
      p = .capacity ∧ ∃ count, c = .allocZeroed count ∧ maxBlock < count ∧
        s.total + count ≤ limit) := by
  intro h s
  obtain ⟨hanswers, hr⟩ := (refines_empty limit).answers calls hserved
  have hlimit : h.limit = limit := hr.limit_eq.trans (BlockMap.after_limit _ calls)
  refine ⟨hanswers, ?_, hr.used_eq, hr.mem_live, pairwise_liveFrom _ 1,
    fun c e he _ => perform_error he, ?_, ?_⟩
  · obtain ⟨n, -, hcount, hhandles⟩ := (BlockMap.empty limit).handles_answers calls
    have hn : s.count = n := hcount.trans (Nat.zero_add n)
    rw [hanswers, hhandles, hn]
    rfl
  · rintro before handle later rfl hfree
    -- the history is cut behind the call that frees the block
    have hcut : before ++ .free handle :: later = (before ++ [.free handle]) ++ later := by simp
    rw [hcut, answers_append] at hserved
    have hfirst : ∀ p, .error (.panic p) ∉
        answers Heap.perform (Heap.empty limit) (before ++ [.free handle]) :=
      fun p hp => hserved p (List.mem_append_left _ hp)
    have hsecond : ∀ p, .error (.panic p) ∉ answers Heap.perform
        (after Heap.perform (Heap.empty limit) (before ++ [.free handle])) later :=
      fun p hp => hserved p (List.mem_append_right _ hp)
    have hbefore := ((refines_empty limit).answers before fun p hp =>
      hfirst p (answers_append Heap.perform .. ▸ List.mem_append_left _ hp)).2
    have hfreed := ((refines_empty limit).answers (before ++ [.free handle]) hfirst).2
    have hgone : (after BlockMap.perform (BlockMap.empty limit) (before ++ [.free handle])).Gone
        handle.toInt := by
      rw [after_append]
      exact hbefore.gone_of_free hfree
    refine ⟨hr.get_of_gone ?_, fun hlength => ?_⟩
    · rw [hcut, after_append]
      exact hgone.after later
    · obtain ⟨n, hn, hcount, -⟩ :=
        (BlockMap.empty limit).handles_answers (before ++ [.free handle])
      rw [(hfreed.answers later hsecond).1]
      apply not_mem_answers_of_gone hgone
      have hzero : (BlockMap.empty limit).count = 0 := rfl
      simp only [List.length_append, List.length_cons, List.length_nil] at hlength hn
      omega
  · intro c p
    rw [hr.panic_iff, Exceeds, hr.used_eq, hlimit]

/-- A history in which a handle is used after its block was freed, and an allocation is refused. -/
def reuseCalls : List Call :=
  [.alloc #[.ofNat 7, .ofNat 8], .store 1 1 (.ofNat 9), .allocZeroed 2, .free 1, .load 1 0,
    .alloc #[.ofNat 4], .get 2]

theorem answers_refine_reuseCalls :
    answers Heap.perform (Heap.empty 3) reuseCalls =
      [.ok (.handle 1), .ok .done, .error (.heapExhausted 3), .ok .done, .error (.invalidHandle 1),
        .ok (.handle 2), .ok (.words [.ofNat 4])] ∧
    answers Heap.perform (Heap.empty 3) reuseCalls =
      answers BlockMap.perform (BlockMap.empty 3) reuseCalls ∧
    (after Heap.perform (Heap.empty 3) reuseCalls).get 1 = .error (.invalidHandle 1) := by
  have hanswers : answers Heap.perform (Heap.empty 3) reuseCalls =
      [.ok (.handle 1), .ok .done, .error (.heapExhausted 3), .ok .done, .error (.invalidHandle 1),
        .ok (.handle 2), .ok (.words [.ofNat 4])] := by
    decide +kernel
  obtain ⟨hmap, -, -, -, -, -, hfreed, -⟩ :=
    answers_refine 3 reuseCalls (by rw [hanswers]; simp)
  have hget := hfreed [.alloc #[.ofNat 7, .ofNat 8], .store 1 1 (.ofNat 9), .allocZeroed 2] 1
    [.load 1 0, .alloc #[.ofNat 4], .get 2] rfl (by decide +kernel)
  exact ⟨hanswers, hmap, hget.1⟩

/-- The map answers a call that the host of the heap does not. -/
theorem perform_allocZeroed_capacity :
    ((Heap.empty 0x7fffffffffffffff).perform (.allocZeroed 0x7fffffffffffffff)).1 =
      .error (.panic .capacity) ∧
    ((BlockMap.empty 0x7fffffffffffffff).perform (.allocZeroed 0x7fffffffffffffff)).1 =
      .ok (.handle 1) := by
  refine ⟨rfl, ?_⟩
  have hempty : (BlockMap.empty 0x7fffffffffffffff).total = 0 := rfl
  have hroom : ¬ (BlockMap.empty 0x7fffffffffffffff).limit <
      0 + (List.replicate 0x7fffffffffffffff Word.zero).length := by
    rw [List.length_replicate]
    decide
  simp only [BlockMap.perform, BlockMap.alloc, hempty, if_neg hroom]
  rfl

end Heap
end EdeLang
