import EdeLang.Proofs.Machine.Invariant

/-!
# What a failed step leaves behind

An instruction pops its operands, then has its effect, and pushes its result at the end. The words
that it popped leave room for the result, so it fails before its effect if it fails at all: a
failed step has lost words of the stack and nothing else. Packing no words pops none, and finds a
full stack only when its block is on the heap already.
-/

namespace EdeLang.Machine

variable {α β : Type} {x : Exec α} {f : α → Exec β} {m m' m'' : Machine} {j k : Nat}

/-- The machine has lost words of its stack, at least so many, and nothing else. -/
structure Shed (k : Nat) (m m' : Machine) : Prop where
  rest_eq : m' = { m with stack := m'.stack }
  stack_le : m'.stack.toList <+: m.stack.toList
  size_le : m'.stack.size + k ≤ m.stack.size

theorem Shed.refl (m : Machine) : Shed 0 m m := ⟨rfl, List.prefix_refl _, Nat.le_refl _⟩

theorem Shed.trans (h : Shed j m m') (h' : Shed k m' m'') : Shed (j + k) m m'' := by
  refine ⟨?_, h'.stack_le.trans h.stack_le, ?_⟩
  · rw [h'.rest_eq, h.rest_eq]
  · have hsize := h.size_le
    have hsize' := h'.size_le
    omega

theorem Shed.mono (h : Shed k m m') (hjk : j ≤ k) : Shed j m m' :=
  ⟨h.rest_eq, h.stack_le, (Nat.add_le_add_left hjk _).trans h.size_le⟩

theorem Shed.limits_eq (h : Shed k m m') : m'.limits = m.limits := by rw [h.rest_eq]

/-- A fault of an instruction that has lost words of the stack and done nothing else. -/
structure Early (e : Fault) (m m' : Machine) : Prop where
  shed : Shed 0 m m'
  executed : ∀ d, e ≠ .decode d

theorem Early.after {e : Fault} (h : Shed k m m') (h' : Early e m' m'') : Early e m m'' :=
  ⟨(h.trans h'.shed).mono (Nat.zero_le _), h'.executed⟩

/-- The action takes at least so many words off the stack and does nothing else; if it fails it has
taken some of them. -/
structure Pops (k : Nat) (x : Exec α) : Prop where
  shed : ∀ {m a m'}, x m = .ok a m' → Shed k m m'
  early : ∀ {m e m'}, x m = .error e m' → Early e m m'

theorem Pops.bind (hx : Pops j x) (hf : ∀ a, Pops k (f a)) : Pops (j + k) (x >>= f) := by
  constructor
  · intro m b m'' h
    cases hm : x m with
    | error e m' =>
      rw [bind_error hm] at h
      cases h
    | ok a m' =>
      rw [bind_ok hm] at h
      exact (hx.shed hm).trans ((hf a).shed h)
  · intro m e m'' h
    cases hm : x m with
    | error e' m' =>
      rw [bind_error hm] at h
      cases h
      exact hx.early hm
    | ok a m' =>
      rw [bind_ok hm] at h
      exact .after (hx.shed hm) ((hf a).early h)

theorem pops_pure (a : α) : Pops 0 (pure a : Exec α) := by
  constructor
  · intro m b m' h
    cases h
    exact .refl m
  · intro m e m' h
    cases h

theorem pops_guarded (p : Prop) [Decidable p] (a : α) :
    Pops 0 (if p then throw .divisionByZero else pure a) := by
  split
  · constructor
    · intro m b m' h
      cases h
    · intro m e m' h
      cases h
      exact ⟨.refl m, by simp⟩
  · exact pops_pure a

theorem pops_fromHeap {op : Heap → Except Fault α} (hop : ∀ h d, op h ≠ .error (.decode d)) :
    Pops 0 (fromHeap op) := by
  constructor
  · intro m a m' h
    unfold fromHeap at h
    split at h <;> cases h
    exact .refl m
  · intro m e m' h
    unfold fromHeap at h
    split at h
    · cases h
    · next e' he =>
      cases h
      exact ⟨.refl m, fun d hd => hop _ d (hd ▸ he)⟩

theorem pops_get (handle : Int64) : Pops 0 (fromHeap fun h => h.get handle) := by
  apply pops_fromHeap
  intro h d
  unfold Heap.get
  split <;> simp

theorem pops_hload (handle index : Int64) : Pops 0 (fromHeap fun h => h.load handle index) := by
  apply pops_fromHeap
  intro h d
  unfold Heap.load Heap.get
  grind

theorem pops_pop : Pops 1 pop := by
  constructor
  · intro m w m' h
    unfold pop at h
    cases hback : m.stack.back? with
    | none =>
      rw [hback] at h
      cases h
    | some w' =>
      rw [hback] at h
      cases h
      have hpos : 0 < m.stack.size := by
        rcases Nat.eq_zero_or_pos m.stack.size with hzero | hpos
        · simp [Array.back?, hzero] at hback
        · exact hpos
      refine ⟨rfl, ?_, ?_⟩
      · rw [Array.toList_pop]
        exact List.dropLast_prefix _
      · rw [Array.size_pop]
        omega
  · intro m e m' h
    unfold pop at h
    split at h <;> cases h
    exact ⟨.refl m, by simp⟩

theorem pops_popInt : Pops 1 popInt := pops_pop.bind fun _ => pops_pure _

theorem pops_popDouble : Pops 1 popDouble := pops_pop.bind fun _ => pops_pure _

theorem pops_popBlock (count : Word) : Pops count.toNat (popBlock count) := by
  constructor
  · intro m block m' h
    unfold popBlock at h
    split at h
    · cases h
    · next henough =>
      rw [difference_of_le (Nat.le_of_not_lt henough)] at h
      cases h
      refine ⟨rfl, ?_, ?_⟩
      · simp only [Array.shrink_eq_take, Array.take_eq_extract, Array.toList_extract,
          List.extract_eq_take_drop]
        exact List.take_prefix _ _
      · rw [Array.size_shrink]
        omega
  · intro m e m' h
    unfold popBlock at h
    split at h
    · cases h
      exact ⟨.refl m, by simp⟩
    · next henough =>
      rw [difference_of_le (Nat.le_of_not_lt henough)] at h
      cases h

/-- With room for so many words on the stack, the action fails only before it does anything but
take words off it. -/
def FailsEarly (k : Nat) (x : Exec α) : Prop :=
  ∀ m e m', m.stack.size + k ≤ m.limits.stack → x m = .error e m' → Early e m m'

theorem FailsEarly.mono (hx : FailsEarly j x) (hjk : j ≤ k) : FailsEarly k x :=
  fun m e m' hroom => hx m e m' ((Nat.add_le_add_left hjk _).trans hroom)

/-- What was popped before is room for what follows. -/
theorem Pops.failsEarly (hx : Pops j x) (hf : ∀ a, FailsEarly (j + k) (f a)) :
    FailsEarly k (x >>= f) := by
  intro m e m'' hroom h
  cases hm : x m with
  | error e' m' =>
    rw [bind_error hm] at h
    cases h
    exact hx.early hm
  | ok a m' =>
    rw [bind_ok hm] at h
    have hshed := hx.shed hm
    have hroom' : m'.stack.size + (j + k) ≤ m'.limits.stack := by
      have hsize := hshed.size_le
      rw [hshed.limits_eq]
      omega
    exact .after hshed (hf a _ _ _ hroom' h)

theorem failsEarly_of_unchanged
    (h : ∀ m e m', x m = .error e m' → m' = m ∧ ∀ d, e ≠ .decode d) : FailsEarly k x := by
  intro m e m' _ hm
  obtain ⟨rfl, hexecuted⟩ := h m e m' hm
  exact ⟨.refl _, hexecuted⟩

theorem failsEarly_of_ok (h : ∀ m, ∃ a m', x m = .ok a m') : FailsEarly k x := by
  intro m e m' _ hm
  obtain ⟨a, m'', hok⟩ := h m
  rw [hok] at hm
  cases hm

theorem failsEarly_pure (a : α) : FailsEarly k (pure a : Exec α) :=
  failsEarly_of_ok fun m => ⟨a, m, rfl⟩

theorem failsEarly_modify (g : Machine → Machine) : FailsEarly k (modify g : Exec Unit) :=
  failsEarly_of_ok fun m => ⟨(), g m, rfl⟩

theorem push_of_lt {w : Word} (h : m.stack.size < m.limits.stack) :
    push w m = .ok () { m with stack := m.stack.push w } := if_pos h

theorem failsEarly_push (w : Word) : FailsEarly k (push w) := by
  apply failsEarly_of_unchanged
  intro m e m' h
  unfold push at h
  split at h <;> cases h
  exact ⟨rfl, by simp⟩

/-- An effect that leaves room for the result is not followed by a failure. -/
theorem FailsEarly.push (hx : FailsEarly k x) (w : α → Word)
    (hroom : ∀ m a m', m.stack.size + k ≤ m.limits.stack → x m = .ok a m' →
      m'.stack.size < m'.limits.stack) :
    FailsEarly k (x >>= fun a => Machine.push (w a)) := by
  intro m e m'' hm h
  cases hr : x m with
  | error e' m' =>
    rw [bind_error hr] at h
    cases h
    exact hx _ _ _ hm hr
  | ok a m' =>
    rw [bind_ok hr, push_of_lt (hroom _ _ _ hm hr)] at h
    cases h

theorem failsEarly_pushTwo (first second : Word) :
    FailsEarly 2 (push first >>= fun _ => push second) := by
  apply (failsEarly_push first).push
  intro m u m' hroom h
  rw [push_of_lt (by omega)] at h
  cases h
  show (m.stack.push first).size < m.limits.stack
  rw [Array.size_push]
  omega

theorem failsEarly_loadSlot (slot : Word) : FailsEarly k (loadSlot slot) := by
  apply failsEarly_of_unchanged
  intro m e m' h
  unfold loadSlot push at h
  grind

theorem failsEarly_setSlot (slot w : Word) : FailsEarly k (setSlot slot w) := by
  apply failsEarly_of_unchanged
  intro m e m' h
  unfold setSlot at h
  grind

theorem failsEarly_call (target count : Word) : FailsEarly k (call target count) := by
  apply failsEarly_of_unchanged
  intro m e m' h
  unfold call difference at h
  grind

theorem failsEarly_return (w : Word) : FailsEarly 1 (leave >>= fun _ => push w) := by
  have hleave : FailsEarly 1 leave := by
    apply failsEarly_of_unchanged
    intro m e m' h
    unfold leave at h
    split at h <;> cases h
    exact ⟨rfl, by simp⟩
  apply hleave.push
  intro m u m' hroom h
  unfold leave at h
  split at h <;> cases h
  show (m.stack.shrink m.fp).size < m.limits.stack
  rw [Array.size_shrink]
  omega

theorem failsEarly_onHeap {op : Heap → Except Fault (Heap × α)}
    (hop : ∀ h d, op h ≠ .error (.decode d)) : FailsEarly k (onHeap op) := by
  apply failsEarly_of_unchanged
  intro m e m' h
  unfold onHeap at h
  split at h
  · cases h
  · next e' he =>
    cases h
    exact ⟨rfl, fun d hd => hop _ d (hd ▸ he)⟩

theorem failsEarly_free (handle : Int64) :
    FailsEarly k (onHeap fun h => (h.free handle).map (·, ())) := by
  apply failsEarly_onHeap
  intro h d
  unfold Heap.free difference Except.map
  grind

theorem failsEarly_hstore (handle index : Int64) (value : Word) :
    FailsEarly k (onHeap fun h => (h.store handle index value).map (·, ())) := by
  apply failsEarly_onHeap
  intro h d
  unfold Heap.store Except.map
  grind

theorem failsEarly_pushHandle {op : Heap → Except Fault (Heap × Int64)}
    (hop : ∀ h d, op h ≠ .error (.decode d)) :
    FailsEarly 1 (onHeap op >>= fun handle => push (.ofInt handle)) := by
  apply (failsEarly_onHeap hop).push
  intro m handle m' hroom h
  unfold onHeap at h
  split at h <;> cases h
  exact hroom

theorem failsEarly_pushBlock (block : Array Word) : FailsEarly 1 (pushBlock block) := by
  apply failsEarly_pushHandle
  intro h d
  unfold Heap.alloc Heap.allocWith
  split <;> simp

theorem failsEarly_pushZeros (count : Nat) :
    FailsEarly 1 (onHeap (fun h => h.allocZeroed count) >>= fun handle => push (.ofInt handle)) := by
  apply failsEarly_pushHandle
  intro h d
  unfold Heap.allocZeroed Heap.allocWith
  grind

theorem failsEarly_jumpIf (expected : Bool) (target : Word) :
    FailsEarly k (jumpIf expected target) := by
  apply pops_pop.failsEarly
  intro w
  split
  · exact failsEarly_modify _
  · exact failsEarly_pure ()

theorem failsEarly_intOp {op : Int64 → Int64 → Exec Int64} (hop : ∀ l r, Pops 0 (op l r)) :
    FailsEarly k (intOp op) :=
  pops_popInt.failsEarly fun _ => pops_popInt.failsEarly fun _ => (hop _ _).failsEarly fun _ =>
    failsEarly_push _

theorem failsEarly_doubleOp {op : Double → Double → Exec Double} (hop : ∀ l r, Pops 0 (op l r)) :
    FailsEarly k (doubleOp op) :=
  pops_popDouble.failsEarly fun _ => pops_popDouble.failsEarly fun _ => (hop _ _).failsEarly
    fun _ => failsEarly_push _

theorem failsEarly_compareOp (op : Word → Word → Bool) : FailsEarly k (compareOp op) :=
  pops_pop.failsEarly fun _ => pops_pop.failsEarly fun _ => failsEarly_push _

theorem failsEarly_system (code : Syscall) : FailsEarly 0 (system code) := by
  cases code with
  | exit | printc => exact pops_popInt.failsEarly fun _ => failsEarly_modify _
  | prints =>
    exact pops_popInt.failsEarly fun _ => (pops_get _).failsEarly fun _ => failsEarly_modify _
  | malloc => exact pops_popInt.failsEarly fun _ => failsEarly_pushZeros _
  | free => exact pops_popInt.failsEarly fun _ => failsEarly_free _

private theorem toNat_pos_of_ne_zero {w : Word} (h : w ≠ .zero) : 0 < w.toNat := by
  rcases Nat.eq_zero_or_pos w.toNat with hzero | hpos
  · have hbits : w.bits = 0 := UInt64.toNat_inj.mp hzero
    exact absurd (congrArg Word.mk hbits) h
  · exact hpos

/-- Every instruction fails before its effect, if it does not pack nothing. -/
theorem failsEarly_exec {i : Instruction} (hi : i ≠ .pack .zero) : FailsEarly 0 (exec i) := by
  cases i with
  | noop => exact failsEarly_pure ()
  | push value => exact failsEarly_push value
  | pop => exact pops_pop.failsEarly fun _ => failsEarly_pure ()
  | iadd | isub | imul => exact failsEarly_intOp fun _ _ => pops_pure _
  | idiv => exact failsEarly_intOp fun _ _ => pops_guarded _ _
  | dadd | dsub | dmul => exact failsEarly_doubleOp fun _ _ => pops_pure _
  | ddiv => exact failsEarly_doubleOp fun _ _ => pops_guarded _ _
  | sload slot => exact failsEarly_loadSlot slot
  | sstore slot => exact pops_pop.failsEarly fun _ => failsEarly_setSlot _ _
  | eq | neq => exact failsEarly_compareOp _
  | jump target => exact failsEarly_modify _
  | jumpz target | jumpnz target => exact failsEarly_jumpIf _ target
  | syscall code => exact failsEarly_system code
  | swap =>
    exact pops_pop.failsEarly fun _ => pops_pop.failsEarly fun _ => failsEarly_pushTwo _ _
  | call target count => exact failsEarly_call target count
  | ret => exact pops_pop.failsEarly fun _ => failsEarly_return _
  | pack count =>
    have hpos : 0 < count.toNat := toNat_pos_of_ne_zero fun h => hi (congrArg _ h)
    exact (pops_popBlock count).failsEarly fun _ => (failsEarly_pushBlock _).mono hpos
  | scat =>
    exact pops_popInt.failsEarly fun _ => pops_popInt.failsEarly fun _ =>
      (pops_get _).failsEarly fun _ => (pops_get _).failsEarly fun _ =>
        (failsEarly_pushBlock _).mono (by omega)
  | hload =>
    exact pops_popInt.failsEarly fun _ => pops_popInt.failsEarly fun _ =>
      (pops_hload _ _).failsEarly fun _ => failsEarly_push _
  | hstore =>
    exact pops_pop.failsEarly fun _ => pops_popInt.failsEarly fun _ =>
      pops_popInt.failsEarly fun _ => failsEarly_hstore _ _ _

def withEmptyBlock (m : Machine) : Machine :=
  { m with heap := ⟨m.heap.blocks.push (some #[]), m.heap.used, m.heap.limit⟩ }

/-- Packing nothing pops nothing, so it meets a full stack after its effect. -/
theorem exec_pack_zero (m : Machine) : exec (.pack .zero) m =
    if m.heap.used ≤ m.heap.limit then
      push (.ofInt (Int64.ofNat (m.heap.blocks.size + 1))) m.withEmptyBlock
    else .error (.heapExhausted m.heap.limit) m := by
  have hblock : popBlock .zero m = .ok #[] m := by
    simp [popBlock, difference, Word.zero, Word.toNat]
  rw [exec, bind_ok hblock, pushBlock]
  split
  · next hused =>
    have halloc : onHeap (fun h => h.alloc #[]) m =
        .ok (Int64.ofNat (m.heap.blocks.size + 1)) m.withEmptyBlock := by
      simp [onHeap, Heap.alloc, Heap.allocWith, hused, withEmptyBlock]
    rw [bind_ok halloc]
  · next hused =>
    have halloc : onHeap (fun h => h.alloc #[]) m = .error (.heapExhausted m.heap.limit) m := by
      simp [onHeap, Heap.alloc, Heap.allocWith, hused]
    rw [bind_error halloc]

/-- The instruction packs nothing although the stack is full, and the heap would take the block. -/
def PacksNothing (i : Instruction) (m : Machine) : Prop :=
  i = .pack .zero ∧ m.stack.size = m.limits.stack ∧ m.heap.used ≤ m.heap.limit

/-- What an instruction that fails leaves, with the one exception. -/
theorem exec_error {i : Instruction} {e : Fault} (hstack : m.stack.size ≤ m.limits.stack)
    (h : exec i m = .error e m') :
    Early e m m' ∨
      (PacksNothing i m ∧ e = .stackOverflow m.limits.stack ∧ m' = m.withEmptyBlock) := by
  by_cases hi : i = .pack .zero
  · subst hi
    rw [exec_pack_zero] at h
    split at h
    · next hused =>
      unfold push at h
      split at h
      · cases h
      · next hfull =>
        cases h
        exact .inr ⟨⟨rfl, Nat.le_antisymm hstack (Nat.le_of_not_lt hfull), hused⟩, rfl, rfl⟩
    · cases h
      exact .inl ⟨.refl m, by simp⟩
  · exact .inl (failsEarly_exec hi m e m' hstack h)

theorem step_eq_error {e : Fault} (h : step m = .error e m') :
    (∃ d, e = .decode d ∧ m' = m) ∨
      ∃ i, Instruction.decode m.program m.ip = .ok i ∧
        exec i { m with ip := m.ip + i.size } = .error e m' := by
  cases hdecode : Instruction.decode m.program m.ip with
  | error d =>
    have hstep : step m = .error (.decode d) m := by simp [step, hdecode]
    rw [hstep] at h
    cases h
    exact .inl ⟨d, rfl, rfl⟩
  | ok i =>
    cases hexec : exec i { m with ip := m.ip + i.size } with
    | ok u m'' =>
      have hstep : step m = .ok (m.ip, i) m''.settle := by simp [step, hdecode, hexec]
      rw [hstep] at h
      cases h
    | error e' m'' =>
      have hstep : step m = .error e' m'' := by simp [step, hdecode, hexec]
      rw [hstep] at h
      cases h
      exact .inr ⟨i, rfl, hexec⟩

/-- A step that fails on bytes that are no instruction changes nothing. Any other step that fails
has moved the pointer behind its instruction and lost words of the stack, and changed nothing else,
unless it packs nothing on a full stack: that fails, and leaves an empty block on the heap. Of a
step that is no result, since the host panics, nothing is said about the heap. -/
theorem step_error_effect (hstack : m.stack.size ≤ m.limits.stack) :
    (∀ e m', step m = .error e m' →
      (∃ d, e = .decode d ∧ m' = m) ∨
      ∃ i, Instruction.decode m.program m.ip = .ok i ∧ (∀ d, e ≠ .decode d) ∧
        m'.ip = m.ip + i.size ∧ m'.fp = m.fp ∧ m'.frames = m.frames ∧ m'.output = m.output ∧
        m'.exit = m.exit ∧ m'.program = m.program ∧ m'.limits = m.limits ∧
        m'.stack.toList <+: m.stack.toList ∧
        (¬ PacksNothing i m → (∀ p, e ≠ .panic p) → m'.heap = m.heap)) ∧
    ∀ i, Instruction.decode m.program m.ip = .ok i → PacksNothing i m →
      step m = .error (.stackOverflow m.limits.stack)
        { m with
          ip := m.ip + i.size
          heap := ⟨m.heap.blocks.push (some #[]), m.heap.used, m.heap.limit⟩ } := by
  constructor
  · intro e m' hstep
    rcases step_eq_error hstep with hfetch | ⟨i, hdecode, hexec⟩
    · exact .inl hfetch
    refine .inr ⟨i, hdecode, ?_⟩
    have hcases := exec_error (m := { m with ip := m.ip + i.size }) hstack hexec
    rcases hcases with hearly | ⟨hpacks, rfl, rfl⟩
    · have hrest := hearly.shed.rest_eq
      exact ⟨hearly.executed, by rw [hrest], by rw [hrest], by rw [hrest], by rw [hrest],
        by rw [hrest], by rw [hrest], by rw [hrest], hearly.shed.stack_le, fun _ _ => by rw [hrest]⟩
    · exact ⟨by simp, rfl, rfl, rfl, rfl, rfl, rfl, rfl, List.prefix_refl _,
        fun h => absurd hpacks h⟩
  · rintro _ hdecode ⟨rfl, hfull, hused⟩
    have hexec : exec (.pack .zero) { m with ip := m.ip + (Instruction.pack .zero).size } =
        .error (.stackOverflow m.limits.stack)
          (withEmptyBlock { m with ip := m.ip + (Instruction.pack .zero).size }) := by
      rw [exec_pack_zero, if_pos hused]
      exact if_neg (Nat.not_lt.mpr (Nat.le_of_eq hfull.symm))
    simp [step, hdecode, hexec, withEmptyBlock]

/-- A word, then a pack of no words. -/
def packNothingProgram : Array UInt8 :=
  #[0x01, 7, 0, 0, 0, 0, 0, 0, 0, 0x16, 0, 0, 0, 0, 0, 0, 0, 0]

/-- With room for one word, the pack of no words fails and leaves its block. -/
theorem step_error_effect_packNothing :
    (stepped 1 (load packNothingProgram ⟨1, 0, 0⟩)).stack.size ≤ 1 ∧
    ∃ m', step (stepped 1 (load packNothingProgram ⟨1, 0, 0⟩)) = .error (.stackOverflow 1) m' ∧
      m'.ip = 18 ∧ m'.heap.blocks = #[some #[]] ∧ m'.heap.used = 0 :=
  ⟨by decide, _, (step_error_effect (by decide)).2 (.pack .zero) rfl ⟨rfl, rfl, by decide⟩, rfl, rfl,
    rfl⟩

end EdeLang.Machine
