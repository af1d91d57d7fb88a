import EdeLang.Proofs.Bytecode.Decoding
import EdeLang.Proofs.Machine.Limits

/-!
# What holds in every state of a machine

Whatever bytes a machine is loaded with and however often it is stepped, also after faults and
after its end, its stack, its frames and its heap stay within the limits. In such a state no step
goes beyond an array or below zero. But an allocation that the limit of the heap admits can be
larger than any block of the host, which then panics, and with a panic the states end.

Of what the host cannot hold only the blocks of zeros are modelled. That the stack, the frames, the
blocks of the heap, two joined blocks or the output outgrow the memory of the host is outside.
-/

namespace EdeLang

namespace Heap

def liveWords (h : Heap) : Nat := (h.live.map fun e => e.2.size).sum

private def countWords (blocks : List (Option (Array Word))) : Nat :=
  (blocks.map fun b => b.elim 0 Array.size).sum

private theorem liveWords_eq (h : Heap) : h.liveWords = countWords h.blocks.toList := by
  have hfrom : ∀ (blocks : List (Option (Array Word))) (handle : Nat),
      ((liveFrom handle blocks).map fun e => e.2.size).sum = countWords blocks := by
    intro blocks
    induction blocks with
    | nil => intro handle; rfl
    | cons b blocks ih =>
      intro handle
      cases b with
      | none => simpa [liveFrom, countWords] using ih (handle + 1)
      | some block => simpa [liveFrom, countWords] using ih (handle + 1)
  exact hfrom h.blocks.toList 1

private theorem countWords_set {blocks : List (Option (Array Word))} {i : Nat}
    {old : Option (Array Word)} (h : blocks[i]? = some old) (new : Option (Array Word)) :
    countWords (blocks.set i new) + old.elim 0 Array.size =
      countWords blocks + new.elim 0 Array.size := by
  induction blocks generalizing i with
  | nil => simp at h
  | cons b blocks ih =>
    cases i with
    | zero =>
      obtain rfl : b = old := by simpa using h
      simp only [countWords, List.set_cons_zero, List.map_cons, List.sum_cons]
      omega
    | succ i =>
      have hrest := ih (i := i) (by simpa using h)
      simp only [countWords, List.set_cons_succ, List.map_cons, List.sum_cons] at hrest ⊢
      omega

/-- The heap counts the words of its live blocks, and they are within its limit. -/
structure Balanced (h : Heap) : Prop where
  used_eq : h.used = h.liveWords
  used_le : h.used ≤ h.limit

theorem Balanced.allocWith {h h' : Heap} {size : Nat} {block : Unit → Array Word} {handle : Int64}
    (hb : h.Balanced) (hsize : (block ()).size = size)
    (halloc : h.allocWith size block = .ok (h', handle)) :
    h'.Balanced ∧ h'.limit = h.limit := by
  unfold Heap.allocWith at halloc
  split_ifs at halloc with hroom
  cases halloc
  refine ⟨⟨?_, hroom⟩, rfl⟩
  have hused := hb.used_eq
  rw [liveWords_eq] at hused ⊢
  simp [countWords, hsize] at hused ⊢
  omega

private theorem block_le_used {h : Heap} (hb : h.Balanced) {i : Nat} {block : Array Word}
    (hi : h.blocks[i]? = some (some block)) : block.size ≤ h.used := by
  have hlist : h.blocks.toList[i]? = some (some block) := by simpa using hi
  have hset := countWords_set hlist none
  rw [hb.used_eq, liveWords_eq]
  simp only [Option.elim_some, Option.elim_none] at hset
  omega

theorem Balanced.free {h : Heap} (hb : h.Balanced) (handle : Int64) :
    (∃ h', h.free handle = .ok h' ∧ h'.Balanced ∧ h'.limit = h.limit) ∨
      h.free handle = .error (.invalidHandle handle) := by
  unfold Heap.free
  cases index? handle with
  | none => exact .inr rfl
  | some i =>
    cases hi : h.blocks[i]? with
    | none => exact .inr (by simp [hi])
    | some b =>
      cases b with
      | none => exact .inr (by simp [hi])
      | some block =>
        have hle := block_le_used hb hi
        have hlist : h.blocks.toList[i]? = some (some block) := by simpa using hi
        have hset := countWords_set hlist none
        refine .inl ⟨⟨h.blocks.setIfInBounds i none, h.used - block.size, h.limit⟩, ?_,
          ⟨?_, ?_⟩, rfl⟩
        · simp [hi, difference_of_le hle]
        · have hused := hb.used_eq
          rw [liveWords_eq] at hused ⊢
          simp only [Array.toList_setIfInBounds, Option.elim_some, Option.elim_none] at hset ⊢
          omega
        · have hlimit := hb.used_le
          simp only
          omega

theorem Balanced.store {h h' : Heap} {handle index : Int64} {value : Word} (hb : h.Balanced)
    (hstore : h.store handle index value = .ok h') : h'.Balanced ∧ h'.limit = h.limit := by
  unfold Heap.store at hstore
  split at hstore
  · cases hstore
  · next i hindex =>
    split at hstore
    · cases hstore
    · next block hblock =>
      split at hstore
      · cases hstore
      · next k hk =>
        cases hstore
        have hi : h.blocks.toList[i]? = some (some block) := by
          cases hget : h.blocks[i]? with
          | none => simp [hget] at hblock
          | some b => simp_all
        have hlist : (h.blocks.modify i fun b => b.map (·.setIfInBounds k value)).toList =
            h.blocks.toList.set i (some (block.setIfInBounds k value)) := by
          rw [Array.toList_modify, List.modify_eq_set_getElem?, hi]
          rfl
        refine ⟨⟨?_, hb.used_le⟩, rfl⟩
        have hset := countWords_set hi (some (block.setIfInBounds k value))
        have hused := hb.used_eq
        rw [liveWords_eq] at hused ⊢
        simp only [Option.elim_some, Array.size_setIfInBounds] at hset
        show h.used = _
        rw [hlist]
        omega

end Heap

namespace Machine

variable {program : Array UInt8} {limits : Limits}

/-- The machine runs the program under the limits, and all that it holds is within them. -/
structure Bounded (program : Array UInt8) (limits : Limits) (m : Machine) : Prop where
  program_eq : m.program = program
  limits_eq : m.limits = limits
  stack_le : m.stack.size ≤ limits.stack
  frames_le : m.frames.size ≤ limits.frames
  used_eq : m.heap.used = m.heap.liveWords
  used_le : m.heap.used ≤ limits.heap
  heap_limit : m.heap.limit = limits.heap
  fp_le : m.fp ≤ limits.stack
  saved_le : ∀ f ∈ m.frames, f.fp ≤ limits.stack ∧ f.ret ≤ program.size

namespace Bounded

variable {m : Machine}

theorem balanced (hm : m.Bounded program limits) : m.heap.Balanced :=
  ⟨hm.used_eq, by rw [hm.heap_limit]; exact hm.used_le⟩

theorem withStack (hm : m.Bounded program limits) {stack : Array Word}
    (hle : stack.size ≤ limits.stack) : Bounded program limits { m with stack } :=
  ⟨hm.program_eq, hm.limits_eq, hle, hm.frames_le, hm.used_eq, hm.used_le, hm.heap_limit, hm.fp_le,
    hm.saved_le⟩

theorem withHeap (hm : m.Bounded program limits) {heap : Heap} (hb : heap.Balanced)
    (hlimit : heap.limit = m.heap.limit) : Bounded program limits { m with heap } := by
  rw [hm.heap_limit] at hlimit
  exact ⟨hm.program_eq, hm.limits_eq, hm.stack_le, hm.frames_le, hb.used_eq, hlimit ▸ hb.used_le,
    hlimit, hm.fp_le, hm.saved_le⟩

/-- The pointer, the output and the status are not bounded. -/
theorem withRest (hm : m.Bounded program limits) (ip : Nat) (output : String)
    (exit : Option Int64) : Bounded program limits { m with ip, output, exit } :=
  ⟨hm.program_eq, hm.limits_eq, hm.stack_le, hm.frames_le, hm.used_eq, hm.used_le, hm.heap_limit,
    hm.fp_le, hm.saved_le⟩

theorem settle (hm : m.Bounded program limits) : m.settle.Bounded program limits := by
  unfold Machine.settle
  split
  · exact hm.withRest m.ip m.output (some 0)
  · exact hm

end Bounded

theorem bounded_load (program : Array UInt8) (limits : Limits) :
    (load program limits).Bounded program limits := by
  apply Bounded.settle
  constructor <;> simp [Heap.empty, Heap.liveWords, Heap.live, Heap.liveFrom]

section Actions

variable {α β : Type} {large : Prop}

/-- The machine that is left is within the bounds, and the result is no panic, unless the action
may ask the host for a block that is too large. -/
structure Fair (program : Array UInt8) (limits : Limits) (large : Prop)
    (r : EStateM.Result Fault Machine α) : Prop where
  bounded : (reached r).Bounded program limits
  panic : ∀ p m', r = .error (.panic p) m' → large ∧ p = .capacity

/-- The action keeps to the bounds. -/
def Safe (program : Array UInt8) (limits : Limits) (large : Prop) (x : Exec α) : Prop :=
  ∀ m, m.Bounded program limits → Fair program limits large (x m)

theorem fair_ok {a : α} {m : Machine} (hm : m.Bounded program limits) :
    Fair program limits large (.ok a m : EStateM.Result Fault Machine α) :=
  ⟨hm, fun _ _ h => by cases h⟩

theorem fair_error {e : Fault} {m : Machine} (hm : m.Bounded program limits)
    (he : ∀ p, e ≠ .panic p) :
    Fair program limits large (.error e m : EStateM.Result Fault Machine α) := by
  refine ⟨hm, fun p _ h => ?_⟩
  cases h
  exact absurd rfl (he p)

theorem Safe.bind {x : Exec α} {f : α → Exec β} (hx : Safe program limits large x)
    (hf : ∀ a, Safe program limits large (f a)) : Safe program limits large (x >>= f) := by
  intro m hm
  have hfirst := hx m hm
  cases hr : x m with
  | error e m' =>
    rw [hr] at hfirst
    rw [bind_error hr]
    refine ⟨hfirst.bounded, fun p m'' h => ?_⟩
    cases h
    exact hfirst.panic p m' rfl
  | ok a m' =>
    rw [hr] at hfirst
    rw [bind_ok hr]
    exact hf a m' hfirst.bounded

theorem safe_pure (a : α) : Safe program limits large (pure a) := fun _ hm => fair_ok hm

theorem safe_throw {e : Fault} (he : ∀ p, e ≠ .panic p) :
    Safe program limits large (throw e : Exec α) := fun _ hm => fair_error hm he

theorem safe_push (w : Word) : Safe program limits large (push w) := by
  intro m hm
  unfold push
  split
  · next hroom =>
    apply fair_ok
    apply hm.withStack
    rw [Array.size_push]
    exact hm.limits_eq ▸ hroom
  · exact fair_error hm (by simp)

theorem safe_pop : Safe program limits large pop := by
  intro m hm
  unfold pop
  split
  · apply fair_ok
    apply hm.withStack
    rw [Array.size_pop]
    exact (Nat.sub_le _ _).trans hm.stack_le
  · exact fair_error hm (by simp)

theorem safe_popInt : Safe program limits large popInt := safe_pop.bind fun _ => safe_pure _

theorem safe_popDouble : Safe program limits large popDouble :=
  safe_pop.bind fun _ => safe_pure _

private theorem slot?_lt {m : Machine} {k : Word} {i : Nat} (h : m.slot? k = some i) :
    i < m.stack.size := by
  unfold slot? at h
  split_ifs at h with hlt
  cases h
  exact hlt

theorem safe_loadSlot (k : Word) : Safe program limits large (loadSlot k) := by
  intro m hm
  unfold loadSlot
  split
  · exact fair_error hm (by simp)
  · next i hi =>
    have hlt := slot?_lt hi
    have hget : m.stack[i]? = some m.stack[i] := Array.getElem?_eq_getElem hlt
    rw [hget]
    exact safe_push _ m hm

theorem safe_setSlot (k w : Word) : Safe program limits large (setSlot k w) := by
  intro m hm
  unfold setSlot
  split
  · exact fair_error hm (by simp)
  · next i hi =>
    rw [if_pos (slot?_lt hi)]
    apply fair_ok
    apply hm.withStack
    rw [Array.size_setIfInBounds]
    exact hm.stack_le

theorem safe_jump (target : Word) : Safe program limits large (jump target) :=
  fun m hm => fair_ok (hm.withRest target.toNat m.output m.exit)

theorem safe_print (text : String) : Safe program limits large (print text) :=
  fun m hm => fair_ok (hm.withRest m.ip (m.output ++ text) m.exit)

theorem fair_call {m : Machine} (hm : m.Bounded program limits) (hip : m.ip ≤ program.size)
    (target count : Word) : Fair program limits large (call target count m) := by
  by_cases hframes : m.limits.frames ≤ m.frames.size
  · rw [call, if_pos hframes]
    exact fair_error hm (by simp)
  · rw [call_of_lt target count hframes]
    split
    · exact fair_error hm (by simp)
    · apply fair_ok
      have hstack := hm.stack_le
      rw [hm.limits_eq] at hframes
      refine ⟨hm.program_eq, hm.limits_eq, hstack, ?_, hm.used_eq, hm.used_le, hm.heap_limit,
        ?_, ?_⟩
      · rw [Array.size_push]
        omega
      · exact (Nat.sub_le _ _).trans hstack
      · intro f hf
        rcases Array.mem_push.mp hf with hold | rfl
        · exact hm.saved_le f hold
        · exact ⟨hm.fp_le, hip⟩

theorem safe_leave : Safe program limits large leave := by
  intro m hm
  unfold leave
  split
  · exact fair_error hm (by simp)
  · next frame hframe =>
    apply fair_ok
    have hsaved := hm.saved_le frame (Array.mem_of_back? hframe)
    refine ⟨hm.program_eq, hm.limits_eq, ?_, ?_, hm.used_eq, hm.used_le, hm.heap_limit,
      hsaved.1, ?_⟩
    · rw [Array.size_shrink]
      exact (Nat.min_le_right _ _).trans hm.stack_le
    · rw [Array.size_pop]
      exact (Nat.sub_le _ _).trans hm.frames_le
    · intro f hf
      rw [Array.mem_def, Array.toList_pop] at hf
      exact hm.saved_le f (Array.mem_def.mpr (List.mem_of_mem_dropLast hf))

theorem safe_popBlock (count : Word) : Safe program limits large (popBlock count) := by
  intro m hm
  unfold popBlock
  split
  · exact fair_error hm (by simp)
  · next henough =>
    rw [difference_of_le (Nat.le_of_not_lt henough)]
    apply fair_ok
    apply hm.withStack
    rw [Array.size_shrink]
    exact (Nat.min_le_right _ _).trans hm.stack_le

theorem safe_fromHeap {op : Heap → Except Fault α} (hop : ∀ h e p, op h = .error e → e ≠ .panic p) :
    Safe program limits large (fromHeap op) := by
  intro m hm
  unfold fromHeap
  split
  · exact fair_ok hm
  · next e he => exact fair_error hm fun p => hop _ e p he

theorem safe_get (handle : Int64) : Safe program limits large (fromHeap fun h => h.get handle) := by
  apply safe_fromHeap
  intro h e p he
  unfold Heap.get at he
  split at he <;> cases he
  simp

theorem safe_hload (handle index : Int64) :
    Safe program limits large (fromHeap fun h => h.load handle index) := by
  apply safe_fromHeap
  intro h e p he
  unfold Heap.load Heap.get at he
  grind

theorem safe_free (handle : Int64) :
    Safe program limits large (onHeap fun h => (h.free handle).map (·, ())) := by
  intro m hm
  rcases hm.balanced.free handle with hok | herror
  · obtain ⟨h', hfree, hb, hlimit⟩ := hok
    simp only [onHeap, hfree, Except.map]
    exact fair_ok (hm.withHeap hb hlimit)
  · simp only [onHeap, herror, Except.map]
    exact fair_error hm (by simp)

theorem safe_hstore (handle index : Int64) (value : Word) :
    Safe program limits large (onHeap fun h => (h.store handle index value).map (·, ())) := by
  intro m hm
  cases hstore : m.heap.store handle index value with
  | ok h' =>
    obtain ⟨hb, hlimit⟩ := hm.balanced.store hstore
    simp only [onHeap, hstore, Except.map]
    exact fair_ok (hm.withHeap hb hlimit)
  | error e =>
    simp only [onHeap, hstore, Except.map]
    apply fair_error hm
    intro p
    unfold Heap.store at hstore
    grind

private theorem safe_allocWith {size : Nat} {block : Unit → Array Word}
    (hsize : (block ()).size = size) :
    Safe program limits large (onHeap fun h => h.allocWith size block) := by
  intro m hm
  unfold onHeap
  split
  · next heap handle halloc =>
    obtain ⟨hb, hlimit⟩ := hm.balanced.allocWith hsize halloc
    exact fair_ok (hm.withHeap hb hlimit)
  · next e herror =>
    apply fair_error hm
    intro p
    simp only [Heap.allocWith] at herror
    split_ifs at herror
    cases herror
    simp

theorem safe_pushBlock (block : Array Word) : Safe program limits large (pushBlock block) := by
  have halloc : Safe program limits large (onHeap fun h => h.alloc block) := safe_allocWith rfl
  exact halloc.bind fun _ => safe_push _

/-- Only an allocation of zeros can ask for a block that is too large. -/
theorem safe_allocZeroed (count : Nat) :
    Safe program limits True (onHeap fun h => h.allocZeroed count) := by
  intro m hm
  by_cases hlarge : m.heap.used + count ≤ m.heap.limit ∧ Heap.maxBlock < count
  · simp only [onHeap, Heap.allocZeroed, if_pos hlarge]
    refine ⟨hm, fun p m' h => ?_⟩
    cases h
    exact ⟨trivial, rfl⟩
  · have hsafe : Safe program limits True
        (onHeap fun h => h.allocWith count fun _ => Array.replicate count Word.zero) :=
      safe_allocWith (by simp)
    simpa only [onHeap, Heap.allocZeroed, if_neg hlarge] using hsafe m hm

end Actions

section Instructions

variable {large : Prop}

theorem safe_intOp {op : Int64 → Int64 → Exec Int64}
    (hop : ∀ l r, Safe program limits large (op l r)) : Safe program limits large (intOp op) :=
  safe_popInt.bind fun _ => safe_popInt.bind fun _ => (hop _ _).bind fun _ => safe_push _

theorem safe_doubleOp {op : Double → Double → Exec Double}
    (hop : ∀ l r, Safe program limits large (op l r)) : Safe program limits large (doubleOp op) :=
  safe_popDouble.bind fun _ => safe_popDouble.bind fun _ => (hop _ _).bind fun _ => safe_push _

theorem safe_compareOp (op : Word → Word → Bool) : Safe program limits large (compareOp op) :=
  safe_pop.bind fun _ => safe_pop.bind fun _ => safe_push _

theorem safe_jumpIf (expected : Bool) (target : Word) :
    Safe program limits large (jumpIf expected target) := by
  apply safe_pop.bind
  intro w
  split
  · exact safe_jump target
  · exact safe_pure ()

private theorem safe_guarded {α : Type} (p : Prop) [Decidable p] (a : α) :
    Safe program limits large (if p then throw .divisionByZero else pure a) := by
  split
  · exact safe_throw (by simp)
  · exact safe_pure a

theorem safe_system (code : Syscall) : Safe program limits (code = .malloc) (system code) := by
  cases code with
  | exit =>
    apply safe_popInt.bind
    intro code m hm
    exact fair_ok (hm.withRest m.ip m.output (some code))
  | printc => exact safe_popInt.bind fun _ => safe_print _
  | prints => exact safe_popInt.bind fun _ => (safe_get _).bind fun _ => safe_print _
  | malloc =>
    rw [eq_self]
    exact safe_popInt.bind fun _ => (safe_allocZeroed _).bind fun _ => safe_push _
  | free => exact safe_popInt.bind fun _ => safe_free _

/-- An instruction keeps to the bounds, if the pointer behind it lies in the program. -/
theorem fair_exec {m : Machine} (hm : m.Bounded program limits) (hip : m.ip ≤ program.size)
    (i : Instruction) : Fair program limits (i = .syscall .malloc) (exec i m) := by
  cases i with
  | noop => exact safe_pure () m hm
  | push value => exact safe_push value m hm
  | pop => exact safe_pop.bind (fun _ => safe_pure ()) m hm
  | iadd | isub | imul => exact safe_intOp (fun _ _ => safe_pure _) m hm
  | idiv => exact safe_intOp (fun _ _ => safe_guarded _ _) m hm
  | dadd | dsub | dmul => exact safe_doubleOp (fun _ _ => safe_pure _) m hm
  | ddiv => exact safe_doubleOp (fun _ _ => safe_guarded _ _) m hm
  | sload k => exact safe_loadSlot k m hm
  | sstore k => exact safe_pop.bind (fun _ => safe_setSlot _ _) m hm
  | eq | neq => exact safe_compareOp _ m hm
  | jump target => exact safe_jump target m hm
  | jumpz target | jumpnz target => exact safe_jumpIf _ target m hm
  | syscall code =>
    rw [Instruction.syscall.injEq]
    exact safe_system code m hm
  | swap =>
    exact safe_pop.bind (fun _ => safe_pop.bind fun _ => (safe_push _).bind fun _ =>
      safe_push _) m hm
  | call target count => exact fair_call hm hip target count
  | ret => exact safe_pop.bind (fun _ => safe_leave.bind fun _ => safe_push _) m hm
  | pack count => exact (safe_popBlock count).bind (fun _ => safe_pushBlock _) m hm
  | scat =>
    exact safe_popInt.bind (fun _ => safe_popInt.bind fun _ => (safe_get _).bind fun _ =>
      (safe_get _).bind fun _ => safe_pushBlock _) m hm
  | hload =>
    exact safe_popInt.bind (fun _ => safe_popInt.bind fun _ => (safe_hload _ _).bind fun _ =>
      safe_push _) m hm
  | hstore =>
    exact safe_pop.bind (fun _ => safe_popInt.bind fun _ => safe_popInt.bind fun _ =>
      safe_hstore _ _ _) m hm

end Instructions

theorem decode_end_le {program : Array UInt8} {offset : Nat} {i : Instruction}
    (h : Instruction.decode program offset = .ok i) : offset + i.size ≤ program.size := by
  have hlen := congrArg List.length (Instruction.decode_eq_ok_iff.mp h)
  rw [Instruction.encode_length, Array.length_toList, Array.size_extract] at hlen
  have hpos := i.size_pos
  omega

theorem fair_step {m : Machine} (hm : m.Bounded program limits) :
    Fair program limits (Instruction.decode m.program m.ip = .ok (.syscall .malloc)) (step m) := by
  cases hdecode : Instruction.decode m.program m.ip with
  | error e =>
    have hstep : step m = .error (.decode e) m := by simp [step, hdecode]
    rw [hstep]
    exact fair_error hm (by simp)
  | ok i =>
    have hend := decode_end_le hdecode
    rw [hm.program_eq] at hend
    have hexec := fair_exec (hm.withRest (m.ip + i.size) m.output m.exit) hend i
    cases hr : exec i { m with ip := m.ip + i.size } with
    | error e m' =>
      have hstep : step m = .error e m' := by simp [step, hdecode, hr]
      rw [hr] at hexec
      rw [hstep, Except.ok.injEq]
      refine ⟨hexec.bounded, fun p m'' h => ?_⟩
      cases h
      exact hexec.panic p m' rfl
    | ok u m' =>
      have hstep : step m = .ok (m.ip, i) m'.settle := by simp [step, hdecode, hr]
      rw [hr] at hexec
      rw [hstep]
      exact fair_ok (Bounded.settle hexec.bounded)

/-- The machine after a number of steps, whether they fail or not. -/
def stepped : Nat → Machine → Machine
  | 0, m => m
  | n + 1, m => stepped n (reached (step m))

/-- The host has not served an action. -/
def panicked {α : Type} : EStateM.Result Fault Machine α → Bool
  | .error (.panic _) _ => true
  | _ => false

/-- The states of a machine that is stepped on, also after faults and after its end, as long as the
host serves each step. -/
inductive Visits (start : Machine) : Machine → Prop
  | here : Visits start start
  | onward {m : Machine} (before : Visits start m) (served : panicked (step m) = false) :
      Visits start (reached (step m))

theorem Visits.bounded {start m : Machine} (h : Visits start m)
    (hstart : start.Bounded program limits) : m.Bounded program limits := by
  induction h with
  | here => exact hstart
  | onward _ _ ih => exact (fair_step ih).bounded

/-- The topmost word asks for more words than a block of the host can have, and the limit of the
heap admits them. -/
def AsksTooMuch (m : Machine) : Prop :=
  ∃ w, m.stack.back? = some w ∧ Heap.maxBlock < w.toInt.toInt.toNat ∧
    m.heap.used + w.toInt.toInt.toNat ≤ m.heap.limit

private theorem exec_malloc_panic_iff {m : Machine} :
    (∃ p m', exec (.syscall .malloc) m = .error (.panic p) m') ↔ m.AsksTooMuch := by
  cases hback : m.stack.back? with
  | none =>
    have hpop : pop m = .error .stackUnderflow m := by simp [pop, hback]
    have hpopInt : popInt m = .error .stackUnderflow m := by rw [popInt, bind_error hpop]
    have hexec : exec (.syscall .malloc) m = .error .stackUnderflow m := by
      rw [exec, system, bind_error hpopInt]
    simp [hexec, AsksTooMuch, hback]
  | some w =>
    have hpop : pop m = .ok w { m with stack := m.stack.pop } := by simp [pop, hback]
    have hpopInt : popInt m = .ok w.toInt { m with stack := m.stack.pop } := by
      rw [popInt, bind_ok hpop]
      rfl
    have hasks : m.AsksTooMuch ↔
        m.heap.used + w.toInt.toInt.toNat ≤ m.heap.limit ∧ Heap.maxBlock < w.toInt.toInt.toNat := by
      simp [AsksTooMuch, hback, and_comm]
    rw [hasks, exec, system, bind_ok hpopInt]
    by_cases hlarge :
        m.heap.used + w.toInt.toInt.toNat ≤ m.heap.limit ∧ Heap.maxBlock < w.toInt.toInt.toNat
    · have halloc : onHeap (fun h => h.allocZeroed w.toInt.toInt.toNat)
          { m with stack := m.stack.pop } =
          .error (.panic .capacity) { m with stack := m.stack.pop } := by
        simp only [onHeap, Heap.allocZeroed, if_pos hlarge]
      rw [bind_error halloc]
      exact ⟨fun _ => hlarge, fun _ => ⟨_, _, rfl⟩⟩
    · constructor
      · rintro ⟨p, m', h⟩
        simp only [onHeap, Heap.allocZeroed, if_neg hlarge, Heap.allocWith, push, bind,
          EStateM.bind] at h
        split_ifs at h
        all_goals grind
      · exact fun h => absurd h hlarge

/-- A step within the bounds panics only if it allocates, and asks for too much. -/
theorem step_panic_iff {m : Machine} (hm : m.Bounded program limits) :
    (∃ p m', step m = .error (.panic p) m') ↔
      Instruction.decode m.program m.ip = .ok (.syscall .malloc) ∧ m.AsksTooMuch := by
  have hexec : Instruction.decode m.program m.ip = .ok (.syscall .malloc) →
      ((∃ p m', step m = .error (.panic p) m') ↔ m.AsksTooMuch) := by
    intro hdecode
    have hiff := exec_malloc_panic_iff
      (m := { m with ip := m.ip + (Instruction.syscall .malloc).size })
    rw [show AsksTooMuch { m with ip := m.ip + (Instruction.syscall .malloc).size } ↔
      m.AsksTooMuch from Iff.rfl] at hiff
    rw [← hiff]
    cases hr : exec (.syscall .malloc)
        { m with ip := m.ip + (Instruction.syscall .malloc).size } with
    | error e m' => simp [step, hdecode, hr]
    | ok u m' => simp [step, hdecode, hr]
  constructor
  · rintro ⟨p, m', h⟩
    have hdecode := ((fair_step hm).panic p m' h).1
    exact ⟨hdecode, (hexec hdecode).mp ⟨p, m', h⟩⟩
  · rintro ⟨hdecode, hlarge⟩
    exact (hexec hdecode).mpr hlarge

/-- A limit of the heap that is no larger than a block rules panics out. -/
theorem panicked_step {m : Machine} (hm : m.Bounded program limits)
    (hlimit : limits.heap ≤ Heap.maxBlock) : panicked (step m) = false := by
  apply Bool.eq_false_iff.mpr
  intro hpanic
  cases hstep : step m with
  | ok r m' => simp [hstep, panicked] at hpanic
  | error e m' =>
    cases e with
    | panic p =>
      obtain ⟨_, w, _, hlarge, hroom⟩ := (step_panic_iff hm).mp ⟨p, m', hstep⟩
      rw [hm.heap_limit] at hroom
      omega
    | _ => simp [hstep, panicked] at hpanic

theorem visits_stepped {m start : Machine} (hstart : start.Bounded program limits)
    (hlimit : limits.heap ≤ Heap.maxBlock) (h : Visits start m) (n : Nat) :
    Visits start (stepped n m) := by
  induction n generalizing m with
  | zero => exact h
  | succ n ih => exact ih (h.onward (panicked_step (h.bounded hstart) hlimit))

/-- Every state that a loaded machine visits is within the bounds. An instruction fetched in it ends
within the program. An allocation that asks for more words than a block of the host can have, and
that the limit of the heap admits, is no result. Below half of such a block the limit admits none,
also where two blocks are joined, and then every number of steps leads to a visited state and every
step is a result. -/
theorem visits_load_bounded (program : Array UInt8) (limits : Limits) :
    (∀ m, Visits (load program limits) m →
      m.Bounded program limits ∧
      (∀ i, Instruction.decode program m.ip = .ok i → m.ip + i.size ≤ program.size) ∧
      (Instruction.decode program m.ip = .ok (.syscall .malloc) → m.AsksTooMuch →
        ∃ p m', step m = .error (.panic p) m')) ∧
    (limits.heap < 2 ^ 59 → ∀ n, Visits (load program limits) (stepped n (load program limits)) ∧
      ∀ p m', step (stepped n (load program limits)) ≠ .error (.panic p) m') := by
  have hload := bounded_load program limits
  constructor
  · intro m h
    have hm := h.bounded hload
    have hpanic := step_panic_iff hm
    rw [hm.program_eq] at hpanic
    exact ⟨hm, fun i hi => decode_end_le hi, fun hfetch hasks => hpanic.mpr ⟨hfetch, hasks⟩⟩
  · intro hlimit n
    have hblock : limits.heap ≤ Heap.maxBlock := by
      rw [Heap.maxBlock]
      omega
    have hvisits := visits_stepped hload hblock .here n
    refine ⟨hvisits, fun p m' hstep => ?_⟩
    have hserved := panicked_step (hvisits.bounded hload) hblock
    simp [hstep, panicked] at hserved

/-- Allocates as many words as a signed word can count. -/
def hugeMalloc : Array UInt8 :=
  #[0x01, 0xff, 0xff, 0xff, 0xff, 0xff, 0xff, 0xff, 0x7f, 0x12, 0x03]

def hugeLimits : Limits := ⟨65536, 4096, 0x7fffffffffffffff⟩

theorem visits_load_bounded_hugeMalloc :
    (∃ m, Visits (load hugeMalloc hugeLimits) m ∧ m.Bounded hugeMalloc hugeLimits ∧ m.AsksTooMuch ∧
      ∃ p m', step m = .error (.panic p) m') ∧
    ∀ n p m', step (stepped n (load hugeMalloc .standard)) ≠ .error (.panic p) m' := by
  have hvisits : Visits (load hugeMalloc hugeLimits) (stepped 1 (load hugeMalloc hugeLimits)) :=
    .onward .here rfl
  have hasks : (stepped 1 (load hugeMalloc hugeLimits)).AsksTooMuch :=
    ⟨.ofNat 0x7fffffffffffffff, rfl, by decide, by decide⟩
  obtain ⟨hbounded, -, hpanics⟩ := (visits_load_bounded hugeMalloc hugeLimits).1 _ hvisits
  refine ⟨⟨_, hvisits, hbounded, hasks, hpanics rfl hasks⟩, fun n => ?_⟩
  exact ((visits_load_bounded hugeMalloc .standard).2 (by decide) n).2

theorem stepped_load_panics : ∃ m',
    step (stepped 1 (load hugeMalloc hugeLimits)) = .error (.panic .capacity) m' := ⟨_, rfl⟩

end Machine

end EdeLang
