import EdeLang.Proofs.Machine.Failure

/-!
# Calls and returns

A call makes the topmost words the frame of the called function. As long as every instruction
finds on the current frame the words that it pops, nothing below the frame is touched: the frames
of nested calls lie one above the other, and a return takes off the topmost. So a function that
returns has replaced its frame by its result, whatever it did in between.
-/

namespace EdeLang

/-- The words that an instruction takes off the stack. A call leaves its arguments there. -/
def Instruction.pops : Instruction → Nat
  | .noop | .push _ | .sload _ | .jump _ | .call _ _ => 0
  | .pop | .sstore _ | .jumpz _ | .jumpnz _ | .syscall _ | .ret => 1
  | .iadd | .isub | .imul | .idiv | .dadd | .dsub | .dmul | .ddiv => 2
  | .eq | .neq | .swap | .scat | .hload => 2
  | .hstore => 3
  | .pack count => count.toNat

namespace Machine

variable {α β : Type} {x : Exec α} {f : α → Exec β} {m m' m'' : Machine} {j k : Nat}

/-- The action underflows if there are fewer words on the stack, and only then. -/
def Needs (k : Nat) (x : Exec α) : Prop :=
  ∀ m, (∃ m', x m = .error .stackUnderflow m') ↔ m.stack.size < k

/-- The action takes so many words if they are there, and underflows if they are not. -/
def TakesOff (k : Nat) (x : Exec α) : Prop :=
  ∀ m, (k ≤ m.stack.size ∧ ∃ a m', x m = .ok a m' ∧ m'.stack.size + k = m.stack.size) ∨
    (m.stack.size < k ∧ ∃ m', x m = .error .stackUnderflow m')

theorem TakesOff.bind (hx : TakesOff j x) (hf : ∀ a, Needs k (f a)) : Needs (j + k) (x >>= f) := by
  intro m
  rcases hx m with ⟨henough, a, m', hm, hsize⟩ | ⟨hfew, m', hm⟩
  · rw [bind_ok hm, hf a m']
    omega
  · rw [bind_error hm]
    exact ⟨fun _ => by omega, fun _ => ⟨m', rfl⟩⟩

theorem needs_zero (h : ∀ m m', x m ≠ .error .stackUnderflow m') : Needs 0 x :=
  fun m => ⟨fun ⟨m', hm⟩ => absurd hm (h m m'), fun hlt => absurd hlt (Nat.not_lt_zero _)⟩

theorem Needs.bind_zero (hx : Needs 0 x) (hf : ∀ a, Needs 0 (f a)) : Needs 0 (x >>= f) := by
  apply needs_zero
  intro m m'' h
  cases hm : x m with
  | ok a m' =>
    rw [bind_ok hm] at h
    exact Nat.not_lt_zero _ ((hf a m').mp ⟨m'', h⟩)
  | error e m' =>
    rw [bind_error hm] at h
    cases h
    exact Nat.not_lt_zero _ ((hx m).mp ⟨_, hm⟩)

theorem takesOff_pop : TakesOff 1 pop := by
  intro m
  cases hback : m.stack.back? with
  | none =>
    have hempty : m.stack.size = 0 := by simpa using hback
    exact .inr ⟨by omega, m, by simp [pop, hback]⟩
  | some w =>
    have hpos : m.stack.size ≠ 0 := fun hzero => by simp [Array.back?, hzero] at hback
    refine .inl ⟨by omega, w, { m with stack := m.stack.pop }, by simp [pop, hback], ?_⟩
    show m.stack.pop.size + 1 = m.stack.size
    rw [Array.size_pop]
    omega

theorem takesOff_popWith (g : Word → α) : TakesOff 1 (pop >>= fun w => pure (g w)) := by
  intro m
  rcases takesOff_pop m with ⟨henough, w, m', hm, hsize⟩ | ⟨hfew, m', hm⟩
  · exact .inl ⟨henough, g w, m', by rw [bind_ok hm]; rfl, hsize⟩
  · exact .inr ⟨hfew, m', bind_error hm⟩

theorem takesOff_popInt : TakesOff 1 popInt := takesOff_popWith Word.toInt

theorem takesOff_popDouble : TakesOff 1 popDouble := takesOff_popWith Word.toDouble

theorem takesOff_popBlock (count : Word) : TakesOff count.toNat (popBlock count) := by
  intro m
  by_cases hfew : m.stack.size < count.toNat
  · exact .inr ⟨hfew, m, by simp [popBlock, hfew]⟩
  · have hle := Nat.le_of_not_lt hfew
    refine .inl ⟨hle, _, _, by rw [popBlock, if_neg hfew, difference_of_le hle], ?_⟩
    show (m.stack.shrink (m.stack.size - count.toNat)).size + count.toNat = m.stack.size
    rw [Array.size_shrink]
    omega

theorem needs_pure (a : α) : Needs 0 (pure a : Exec α) := needs_zero fun _ _ h => by cases h

theorem needs_modify (g : Machine → Machine) : Needs 0 (modify g : Exec Unit) :=
  needs_zero fun _ _ h => by cases h

theorem needs_guarded (p : Prop) [Decidable p] (a : α) :
    Needs 0 (if p then throw .divisionByZero else pure a : Exec α) := by
  split
  · exact needs_zero fun _ _ h => by cases h
  · exact needs_pure a

theorem needs_push (w : Word) : Needs 0 (push w) := by
  apply needs_zero
  intro m m' h
  unfold push at h
  split at h <;> cases h

theorem needs_loadSlot (slot : Word) : Needs 0 (loadSlot slot) := by
  apply needs_zero
  intro m m' h
  unfold loadSlot push at h
  grind

theorem needs_setSlot (slot w : Word) : Needs 0 (setSlot slot w) := by
  apply needs_zero
  intro m m' h
  unfold setSlot at h
  grind

theorem needs_leave : Needs 0 leave := by
  apply needs_zero
  intro m m' h
  unfold leave at h
  split at h <;> cases h

theorem needs_fromHeap {op : Heap → Except Fault α} (hop : ∀ h, op h ≠ .error .stackUnderflow) :
    Needs 0 (fromHeap op) := by
  apply needs_zero
  intro m m' h
  unfold fromHeap at h
  split at h
  · cases h
  · next e he =>
    cases h
    exact hop _ he

theorem needs_onHeap {op : Heap → Except Fault (Heap × α)}
    (hop : ∀ h, op h ≠ .error .stackUnderflow) : Needs 0 (onHeap op) := by
  apply needs_zero
  intro m m' h
  unfold onHeap at h
  split at h
  · cases h
  · next e he =>
    cases h
    exact hop _ he

theorem needs_get (handle : Int64) : Needs 0 (fromHeap fun h => h.get handle) := by
  apply needs_fromHeap
  intro h
  unfold Heap.get
  split <;> simp

theorem needs_pushBlock (block : Array Word) : Needs 0 (pushBlock block) := by
  apply (needs_onHeap _).bind_zero fun _ => needs_push _
  intro h
  unfold Heap.alloc Heap.allocWith
  split <;> simp

theorem needs_intOp {op : Int64 → Int64 → Exec Int64} (hop : ∀ l r, Needs 0 (op l r)) :
    Needs 2 (intOp op) :=
  takesOff_popInt.bind fun _ => takesOff_popInt.bind fun _ => (hop _ _).bind_zero fun _ =>
    needs_push _

theorem needs_doubleOp {op : Double → Double → Exec Double} (hop : ∀ l r, Needs 0 (op l r)) :
    Needs 2 (doubleOp op) :=
  takesOff_popDouble.bind fun _ => takesOff_popDouble.bind fun _ => (hop _ _).bind_zero fun _ =>
    needs_push _

theorem needs_compareOp (op : Word → Word → Bool) : Needs 2 (compareOp op) :=
  takesOff_pop.bind fun _ => takesOff_pop.bind fun _ => needs_push _

theorem needs_jumpIf (expected : Bool) (target : Word) : Needs 1 (jumpIf expected target) := by
  apply takesOff_pop.bind (k := 0)
  intro w
  split
  · exact needs_modify _
  · exact needs_pure ()

theorem needs_system (code : Syscall) : Needs 1 (system code) := by
  cases code with
  | exit | printc => exact takesOff_popInt.bind fun _ => needs_modify _
  | prints =>
    exact takesOff_popInt.bind fun _ => (needs_get _).bind_zero fun _ => needs_modify _
  | malloc =>
    apply takesOff_popInt.bind (k := 0)
    intro count
    apply (needs_onHeap _).bind_zero fun _ => needs_push _
    intro h
    unfold Heap.allocZeroed Heap.allocWith
    grind
  | free =>
    apply takesOff_popInt.bind (k := 0)
    intro handle
    apply needs_onHeap
    intro h
    unfold Heap.free difference Except.map
    grind

/-- An instruction other than a call underflows exactly if the stack has fewer words than it
pops. -/
theorem needs_exec {i : Instruction} (hi : ∀ target count, i ≠ .call target count) :
    Needs i.pops (exec i) := by
  cases i with
  | noop => exact needs_pure ()
  | push value => exact needs_push value
  | pop => exact takesOff_pop.bind fun _ => needs_pure ()
  | iadd | isub | imul => exact needs_intOp fun _ _ => needs_pure _
  | idiv => exact needs_intOp fun _ _ => needs_guarded _ _
  | dadd | dsub | dmul => exact needs_doubleOp fun _ _ => needs_pure _
  | ddiv => exact needs_doubleOp fun _ _ => needs_guarded _ _
  | sload slot => exact needs_loadSlot slot
  | sstore slot => exact takesOff_pop.bind fun _ => needs_setSlot _ _
  | eq | neq => exact needs_compareOp _
  | jump target => exact needs_modify _
  | jumpz target | jumpnz target => exact needs_jumpIf _ target
  | syscall code => exact needs_system code
  | swap =>
    exact takesOff_pop.bind fun _ => takesOff_pop.bind fun _ => (needs_push _).bind_zero fun _ =>
      needs_push _
  | call target count => exact absurd rfl (hi target count)
  | ret => exact takesOff_pop.bind fun _ => needs_leave.bind_zero fun _ => needs_push _
  | pack count => exact (takesOff_popBlock count).bind fun _ => needs_pushBlock _
  | scat =>
    exact takesOff_popInt.bind fun _ => takesOff_popInt.bind fun _ => (needs_get _).bind_zero
      fun _ => (needs_get _).bind_zero fun _ => needs_pushBlock _
  | hload =>
    apply takesOff_popInt.bind (k := 1)
    intro index
    apply takesOff_popInt.bind (k := 0)
    intro handle
    apply (needs_fromHeap _).bind_zero fun _ => needs_push _
    intro h
    unfold Heap.load Heap.get
    grind
  | hstore =>
    apply takesOff_pop.bind (k := 2)
    intro value
    apply takesOff_popInt.bind (k := 1)
    intro index
    apply takesOff_popInt.bind (k := 0)
    intro handle
    apply needs_onHeap
    intro h
    unfold Heap.store Except.map
    grind

/-- The frames are as before, no more than so many words are missing on the stack, and those below
the frame base are the same. -/
structure Stays (k : Nat) (m m' : Machine) : Prop where
  fp_eq : m'.fp = m.fp
  frames_eq : m'.frames = m.frames
  size_le : m.stack.size ≤ m'.stack.size + k
  below : m'.stack.toList.take m.fp = m.stack.toList.take m.fp

theorem Stays.trans (h : Stays j m m') (h' : Stays k m' m'') : Stays (j + k) m m'' := by
  refine ⟨h'.fp_eq.trans h.fp_eq, h'.frames_eq.trans h.frames_eq, ?_, ?_⟩
  · have hsize := h.size_le
    have hsize' := h'.size_le
    omega
  · have hbelow := h'.below
    rw [h.fp_eq] at hbelow
    exact hbelow.trans h.below

/-- With so many words on the frame, an action that succeeds takes no more and stays on the
frame. -/
def OnFrame (k : Nat) (x : Exec α) : Prop :=
  ∀ m a m', m.fp + k ≤ m.stack.size → x m = .ok a m' → Stays k m m'

theorem OnFrame.bind (hx : OnFrame j x) (hf : ∀ a, OnFrame k (f a)) :
    OnFrame (j + k) (x >>= f) := by
  intro m b m'' hroom h
  cases hm : x m with
  | error e m' =>
    rw [bind_error hm] at h
    cases h
  | ok a m' =>
    rw [bind_ok hm] at h
    have hfirst := hx m a m' (by omega) hm
    have hroom' : m'.fp + k ≤ m'.stack.size := by
      have hsize := hfirst.size_le
      rw [hfirst.fp_eq]
      omega
    exact hfirst.trans (hf a m' b m'' hroom' h)

theorem onFrame_of_same (h : ∀ m a m', x m = .ok a m' →
    m'.fp = m.fp ∧ m'.frames = m.frames ∧ m'.stack = m.stack) : OnFrame 0 x := by
  intro m a m' _ hm
  obtain ⟨hfp, hframes, hstack⟩ := h m a m' hm
  refine ⟨hfp, hframes, ?_, ?_⟩
  · rw [hstack]
    exact Nat.le_refl _
  · rw [hstack]

theorem onFrame_pure (a : α) : OnFrame 0 (pure a : Exec α) := by
  apply onFrame_of_same
  intro m b m' h
  cases h
  exact ⟨rfl, rfl, rfl⟩

theorem onFrame_guarded (p : Prop) [Decidable p] (a : α) :
    OnFrame 0 (if p then throw .divisionByZero else pure a : Exec α) := by
  split
  · intro m b m' _ h
    cases h
  · exact onFrame_pure a

theorem onFrame_fromHeap (op : Heap → Except Fault α) : OnFrame 0 (fromHeap op) := by
  apply onFrame_of_same
  intro m a m' h
  unfold fromHeap at h
  split at h <;> cases h
  exact ⟨rfl, rfl, rfl⟩

theorem onFrame_onHeap (op : Heap → Except Fault (Heap × α)) : OnFrame 0 (onHeap op) := by
  apply onFrame_of_same
  intro m a m' h
  unfold onHeap at h
  split at h <;> cases h
  exact ⟨rfl, rfl, rfl⟩

theorem onFrame_jump (target : Word) : OnFrame 0 (jump target) := by
  apply onFrame_of_same
  intro m a m' h
  cases h
  exact ⟨rfl, rfl, rfl⟩

theorem onFrame_print (text : String) : OnFrame 0 (print text) := by
  apply onFrame_of_same
  intro m a m' h
  cases h
  exact ⟨rfl, rfl, rfl⟩

theorem onFrame_push (w : Word) : OnFrame 0 (push w) := by
  intro m a m' hroom h
  unfold push at h
  split at h <;> cases h
  refine ⟨rfl, rfl, ?_, ?_⟩
  · rw [Array.size_push]
    omega
  · rw [Array.toList_push]
    exact List.take_append_of_le_length hroom

theorem onFrame_pop : OnFrame 1 pop := by
  intro m w m' hroom h
  unfold pop at h
  split at h <;> cases h
  refine ⟨rfl, rfl, ?_, ?_⟩
  · rw [Array.size_pop]
    omega
  · have hlast : m.fp ≤ m.stack.toList.length - 1 := by
      rw [Array.length_toList]
      omega
    rw [Array.toList_pop, List.dropLast_eq_take, List.take_take, Nat.min_eq_left hlast]

theorem onFrame_popInt : OnFrame 1 popInt := onFrame_pop.bind fun _ => onFrame_pure _

theorem onFrame_popDouble : OnFrame 1 popDouble := onFrame_pop.bind fun _ => onFrame_pure _

theorem onFrame_popBlock (count : Word) : OnFrame count.toNat (popBlock count) := by
  intro m block m' hroom h
  unfold popBlock at h
  split at h
  · cases h
  · next henough =>
    rw [difference_of_le (Nat.le_of_not_lt henough)] at h
    cases h
    refine ⟨rfl, rfl, ?_, ?_⟩
    · rw [Array.size_shrink]
      omega
    · have hrest : m.fp ≤ m.stack.size - count.toNat := by omega
      rw [Array.toList_shrink, List.take_take, Nat.min_eq_left hrest]

theorem onFrame_loadSlot (slot : Word) : OnFrame 0 (loadSlot slot) := by
  intro m a m' hroom h
  unfold loadSlot at h
  split at h
  · cases h
  · split at h
    · exact onFrame_push _ m a m' hroom h
    · cases h

theorem onFrame_setSlot (slot w : Word) : OnFrame 0 (setSlot slot w) := by
  intro m a m' hroom h
  unfold setSlot slot? at h
  split at h
  · cases h
  · next i hi =>
    split at h <;> cases h
    split at hi <;> cases hi
    refine ⟨rfl, rfl, ?_, ?_⟩
    · rw [Array.size_setIfInBounds]
      omega
    · rw [Array.toList_setIfInBounds, List.take_set_of_le (Nat.le_add_right _ _)]

theorem onFrame_pushBlock (block : Array Word) : OnFrame 0 (pushBlock block) :=
  (onFrame_onHeap _).bind fun _ => onFrame_push _

theorem onFrame_intOp {op : Int64 → Int64 → Exec Int64} (hop : ∀ l r, OnFrame 0 (op l r)) :
    OnFrame 2 (intOp op) :=
  onFrame_popInt.bind fun _ => onFrame_popInt.bind fun _ => (hop _ _).bind fun _ => onFrame_push _

theorem onFrame_doubleOp {op : Double → Double → Exec Double} (hop : ∀ l r, OnFrame 0 (op l r)) :
    OnFrame 2 (doubleOp op) :=
  onFrame_popDouble.bind fun _ => onFrame_popDouble.bind fun _ => (hop _ _).bind fun _ =>
    onFrame_push _

theorem onFrame_compareOp (op : Word → Word → Bool) : OnFrame 2 (compareOp op) :=
  onFrame_pop.bind fun _ => onFrame_pop.bind fun _ => onFrame_push _

theorem onFrame_jumpIf (expected : Bool) (target : Word) : OnFrame 1 (jumpIf expected target) := by
  apply onFrame_pop.bind (k := 0)
  intro w
  split
  · exact onFrame_jump target
  · exact onFrame_pure ()

theorem onFrame_system (code : Syscall) : OnFrame 1 (system code) := by
  cases code with
  | exit =>
    apply onFrame_popInt.bind (k := 0)
    intro code
    apply onFrame_of_same
    intro m a m' h
    cases h
    exact ⟨rfl, rfl, rfl⟩
  | printc => exact onFrame_popInt.bind fun _ => onFrame_print _
  | prints =>
    exact onFrame_popInt.bind fun _ => (onFrame_fromHeap _).bind fun _ => onFrame_print _
  | malloc => exact onFrame_popInt.bind fun _ => (onFrame_onHeap _).bind fun _ => onFrame_push _
  | free => exact onFrame_popInt.bind fun _ => onFrame_onHeap _

/-- Every instruction but a call and a return stays on the frame. -/
theorem onFrame_exec {i : Instruction} (hcall : ∀ target count, i ≠ .call target count)
    (hret : i ≠ .ret) : OnFrame i.pops (exec i) := by
  cases i with
  | noop => exact onFrame_pure ()
  | push value => exact onFrame_push value
  | pop => exact onFrame_pop.bind fun _ => onFrame_pure ()
  | iadd | isub | imul => exact onFrame_intOp fun _ _ => onFrame_pure _
  | idiv => exact onFrame_intOp fun _ _ => onFrame_guarded _ _
  | dadd | dsub | dmul => exact onFrame_doubleOp fun _ _ => onFrame_pure _
  | ddiv => exact onFrame_doubleOp fun _ _ => onFrame_guarded _ _
  | sload slot => exact onFrame_loadSlot slot
  | sstore slot => exact onFrame_pop.bind fun _ => onFrame_setSlot _ _
  | eq | neq => exact onFrame_compareOp _
  | jump target => exact onFrame_jump target
  | jumpz target | jumpnz target => exact onFrame_jumpIf _ target
  | syscall code => exact onFrame_system code
  | swap =>
    exact onFrame_pop.bind fun _ => onFrame_pop.bind fun _ => (onFrame_push _).bind fun _ =>
      onFrame_push _
  | call target count => exact absurd rfl (hcall target count)
  | ret => exact absurd rfl hret
  | pack count => exact (onFrame_popBlock count).bind fun _ => onFrame_pushBlock _
  | scat =>
    exact onFrame_popInt.bind fun _ => onFrame_popInt.bind fun _ => (onFrame_fromHeap _).bind
      fun _ => (onFrame_fromHeap _).bind fun _ => onFrame_pushBlock _
  | hload =>
    exact onFrame_popInt.bind fun _ => onFrame_popInt.bind fun _ => (onFrame_fromHeap _).bind
      fun _ => onFrame_push _
  | hstore =>
    exact onFrame_pop.bind fun _ => onFrame_popInt.bind fun _ => onFrame_popInt.bind fun _ =>
      onFrame_onHeap _

/-- The machine that has entered a function with some of its words as the frame. -/
def entered (target count : Word) (m : Machine) : Machine :=
  { m with
    frames := m.frames.push ⟨m.ip, m.fp⟩
    fp := m.stack.size - count.toNat
    ip := target.toNat }

/-- The machine that has left a function with a result. -/
def returned (v : Word) (frame : Frame) (m : Machine) : Machine :=
  { m with
    frames := m.frames.pop
    stack := (m.stack.pop.shrink m.fp).push v
    fp := frame.fp
    ip := frame.ret }

theorem call_eq_ok {target count : Word} {u : Unit} (h : call target count m = .ok u m') :
    count.toNat ≤ m.stack.size - m.fp ∧ m' = m.entered target count := by
  by_cases hframes : m.limits.frames ≤ m.frames.size
  · rw [call, if_pos hframes] at h
    cases h
  · rw [call_of_lt target count hframes] at h
    split at h
    · cases h
    · cases h
      exact ⟨by omega, rfl⟩

theorem ret_eq_ok {u : Unit} (h : ret m = .ok u m') :
    ∃ v frame, m.stack.back? = some v ∧ m.frames.back? = some frame ∧ m' = m.returned v frame := by
  cases hback : m.stack.back? with
  | none =>
    have hpop : pop m = .error .stackUnderflow m := by simp [pop, hback]
    rw [ret, bind_error hpop] at h
    cases h
  | some v =>
    have hpop : pop m = .ok v { m with stack := m.stack.pop } := by simp [pop, hback]
    rw [ret, bind_ok hpop] at h
    cases hframe : m.frames.back? with
    | none =>
      have hleave : leave { m with stack := m.stack.pop } =
          .error .returnWithoutCall { m with stack := m.stack.pop } := by simp [leave, hframe]
      rw [bind_error hleave] at h
      cases h
    | some frame =>
      have hleave : leave { m with stack := m.stack.pop } = .ok ()
          { m with
            frames := m.frames.pop
            stack := m.stack.pop.shrink m.fp
            fp := frame.fp
            ip := frame.ret } := by simp [leave, hframe]
      rw [bind_ok hleave] at h
      unfold push at h
      split at h <;> cases h
      exact ⟨v, frame, rfl, rfl, rfl⟩

theorem toList_returned (v : Word) (frame : Frame) (h : m.fp < m.stack.size) :
    (m.returned v frame).stack.toList = m.stack.toList.take m.fp ++ [v] := by
  have hlast : m.fp ≤ m.stack.toList.length - 1 := by
    rw [Array.length_toList]
    omega
  show ((m.stack.pop.shrink m.fp).push v).toList = _
  rw [Array.toList_push, Array.toList_shrink, Array.toList_pop, List.dropLast_eq_take,
    List.take_take, Nat.min_eq_left hlast]

/-- The frame bases of the calls that were made since a machine was in another state, outermost
first, and then the current one. -/
def bases (s m : Machine) : List Nat :=
  (m.frames.toList.drop s.frames.size).map Frame.fp ++ [m.fp]

/-- The machine runs inside a call that it has entered in another state: the frames of the calls
made since lie one above the other on that of the call, and nothing below it has changed. -/
structure Inside (s m : Machine) : Prop where
  frames_le : s.frames.toList <+: m.frames.toList
  base_eq : (bases s m).head? = some s.fp
  bases_le : (bases s m).Pairwise (· ≤ ·)
  fp_le : m.fp ≤ m.stack.size
  below : m.stack.toList.take s.fp = s.stack.toList.take s.fp

namespace Inside

variable {s : Machine}

theorem refl (h : s.fp ≤ s.stack.size) : Inside s s := by
  have hbases : bases s s = [s.fp] := by simp [bases]
  refine ⟨List.prefix_refl _, ?_, ?_, h, rfl⟩
  · rw [hbases]
    rfl
  · rw [hbases]
    exact List.pairwise_singleton _ _

theorem base_le (h : Inside s m) : s.fp ≤ m.fp := by
  have hhead := h.base_eq
  have hsorted := h.bases_le
  unfold bases at hhead hsorted
  cases hinner : (m.frames.toList.drop s.frames.size).map Frame.fp with
  | nil =>
    rw [hinner] at hhead
    exact Nat.le_of_eq (Option.some.inj hhead).symm
  | cons base rest =>
    rw [hinner] at hhead hsorted
    obtain rfl : base = s.fp := Option.some.inj hhead
    exact (List.pairwise_append.mp hsorted).2.2 _ (by simp) m.fp (by simp)

/-- What lies below the current frame lies below the call. -/
theorem below_of_take (h : Inside s m) {stack : List Word}
    (hstack : stack.take m.fp = m.stack.toList.take m.fp) :
    stack.take s.fp = s.stack.toList.take s.fp := by
  have hmin : min s.fp m.fp = s.fp := Nat.min_eq_left h.base_le
  rw [← h.below, ← hmin, ← List.take_take, ← List.take_take, hstack]

theorem of_stays (h : Inside s m) (hstays : Stays k m m') (hroom : m.fp + k ≤ m.stack.size) :
    Inside s m' := by
  have hbases : bases s m' = bases s m := by rw [bases, bases, hstays.frames_eq, hstays.fp_eq]
  refine ⟨?_, ?_, ?_, ?_, h.below_of_take hstays.below⟩
  · rw [hstays.frames_eq]
    exact h.frames_le
  · rw [hbases]
    exact h.base_eq
  · rw [hbases]
    exact h.bases_le
  · have hsize := hstays.size_le
    rw [hstays.fp_eq]
    omega

theorem entered (h : Inside s m) (target : Word) {count : Word}
    (hcount : count.toNat ≤ m.stack.size - m.fp) : Inside s (m.entered target count) := by
  have hfp := h.fp_le
  have hdepth : s.frames.size ≤ m.frames.toList.length := h.frames_le.length_le
  have hbases : bases s (m.entered target count) =
      bases s m ++ [m.stack.size - count.toNat] := by
    simp [bases, Machine.entered, List.drop_append_of_le_length hdepth]
  refine ⟨?_, ?_, ?_, Nat.sub_le _ _, h.below⟩
  · show s.frames.toList <+: (m.frames.push _).toList
    rw [Array.toList_push]
    exact h.frames_le.trans (List.prefix_append _ _)
  · rw [hbases, List.head?_append, h.base_eq]
    rfl
  · rw [hbases, List.pairwise_append]
    refine ⟨h.bases_le, List.pairwise_singleton _ _, ?_⟩
    intro base hbase top htop
    obtain rfl := List.mem_singleton.mp htop
    have hle : base ≤ m.fp := by
      rcases List.mem_append.mp hbase with hinner | hlast
      · exact (List.pairwise_append.mp h.bases_le).2.2 base hinner m.fp (by simp)
      · exact Nat.le_of_eq (List.mem_singleton.mp hlast)
    omega

theorem returned (h : Inside s m) {v : Word} {frame : Frame} (hframe : m.frames.back? = some frame)
    (hroom : m.fp < m.stack.size) (hnested : s.frames.size < m.frames.size) :
    Inside s (m.returned v frame) := by
  obtain ⟨outer, houter⟩ : ∃ outer, m.frames.toList = outer ++ [frame] := by
    apply List.getLast?_eq_some_iff.mp
    rw [← hframe, Array.getLast?_toList]
  have hpop : (m.returned v frame).frames.toList = outer := by
    show m.frames.pop.toList = outer
    rw [Array.toList_pop, houter, List.dropLast_concat]
  have hdepth : s.frames.size ≤ outer.length := by
    have hsize := congrArg List.length houter
    rw [Array.length_toList, List.length_append, List.length_singleton] at hsize
    omega
  have hbases : bases s m = bases s (m.returned v frame) ++ [m.fp] := by
    rw [bases, bases, hpop, houter, List.drop_append_of_le_length hdepth, List.map_append]
    rfl
  have hsorted := h.bases_le
  rw [hbases] at hsorted
  have hbase := List.pairwise_append.mp hsorted
  have hsize : (m.returned v frame).stack.size = m.fp + 1 := by
    rw [← Array.length_toList, toList_returned v frame hroom, List.length_append, List.length_take,
      Array.length_toList, List.length_singleton]
    omega
  refine ⟨?_, ?_, hbase.1, ?_, ?_⟩
  · rw [hpop]
    apply List.prefix_of_prefix_length_le h.frames_le
    · rw [houter]
      exact List.prefix_append _ _
    · rw [Array.length_toList]
      exact hdepth
  · have hhead := h.base_eq
    rw [hbases, List.head?_append_of_ne_nil _ (by simp [bases])] at hhead
    exact hhead
  · have hle : frame.fp ≤ m.fp := hbase.2.2 _ (by simp [bases, Machine.returned]) _ (by simp)
    show frame.fp ≤ _
    rw [hsize]
    omega
  · apply h.below_of_take
    rw [toList_returned v frame hroom, List.take_append_of_le_length (by simpa using h.fp_le),
      List.take_take, Nat.min_self]

theorem fp_eq (h : Inside s m) (hdepth : m.frames.size ≤ s.frames.size) :
    m.frames = s.frames ∧ m.fp = s.fp := by
  have hframes : s.frames.toList = m.frames.toList := by
    apply h.frames_le.eq_of_length_le
    rw [Array.length_toList, Array.length_toList]
    exact hdepth
  refine ⟨Array.toList_inj.mp hframes.symm, ?_⟩
  have hhead := h.base_eq
  rw [bases, List.drop_of_length_le (by simpa using hdepth)] at hhead
  exact Option.some.inj hhead

end Inside

theorem step_eq_ok {r : Nat × Instruction} (h : step m = .ok r m') :
    ∃ i m₁, Instruction.decode m.program m.ip = .ok i ∧ r = (m.ip, i) ∧
      exec i { m with ip := m.ip + i.size } = .ok () m₁ ∧ m' = m₁.settle := by
  cases hdecode : Instruction.decode m.program m.ip with
  | error d =>
    have hstep : step m = .error (.decode d) m := by simp [step, hdecode]
    rw [hstep] at h
    cases h
  | ok i =>
    cases hexec : exec i { m with ip := m.ip + i.size } with
    | error e m₁ =>
      have hstep : step m = .error e m₁ := by simp [step, hdecode, hexec]
      rw [hstep] at h
      cases h
    | ok u m₁ =>
      have hstep : step m = .ok (m.ip, i) m₁.settle := by simp [step, hdecode, hexec]
      rw [hstep] at h
      cases h
      exact ⟨i, m₁, rfl, rfl, hexec, rfl⟩

/-- The end of the program changes nothing but the status. -/
theorem settle_eq (m : Machine) : m.settle = { m with exit := m.settle.exit } := by
  unfold settle
  split <;> rfl

theorem Inside.settle {s : Machine} (h : Inside s m) : Inside s m.settle := by
  rw [settle_eq]
  exact ⟨h.frames_le, h.base_eq, h.bases_le, h.fp_le, h.below⟩

/-- The next step succeeds, and its instruction finds on the current frame the words that it
pops. -/
def Modest (m : Machine) : Prop :=
  ∃ i m', step m = .ok (m.ip, i) m' ∧ i.pops ≤ m.stack.size - m.fp

/-- The machine has left the call that it had entered in another state, with a result in place of
its frame. -/
structure Left (s : Machine) (v : Word) (m : Machine) : Prop where
  stack_eq : m.stack.toList = s.stack.toList.take s.fp ++ [v]
  frames_eq : m.frames = s.frames.pop
  saved : s.frames.back? = some ⟨m.ip, m.fp⟩

namespace Inside

variable {s : Machine}

/-- A return from the call itself takes off its frame and no more. -/
theorem left (h : Inside s m) {v : Word} {frame : Frame} (hframe : m.frames.back? = some frame)
    (hroom : m.fp < m.stack.size) (hdepth : m.frames.size ≤ s.frames.size) :
    Left s v (m.returned v frame) := by
  obtain ⟨hframes, hfp⟩ := h.fp_eq hdepth
  refine ⟨?_, congrArg Array.pop hframes, hframes ▸ hframe⟩
  rw [toList_returned v frame hroom, hfp, h.below]

/-- A step inside a call stays inside it, or returns from it. -/
theorem step (h : Inside s m) (hmodest : m.Modest) :
    Inside s (reached (Machine.step m)) ∨
      ∃ v, Instruction.decode m.program m.ip = .ok .ret ∧ m.stack.back? = some v ∧
        Left s v (reached (Machine.step m)) := by
  obtain ⟨i, m', hstep, hpops⟩ := hmodest
  obtain ⟨j, m₁, hdecode, hr, hexec, rfl⟩ := step_eq_ok hstep
  obtain rfl : i = j := congrArg Prod.snd hr
  rw [hstep]
  show Inside s m₁.settle ∨ _
  have hfp := h.fp_le
  have hnext : Inside s { m with ip := m.ip + i.size } :=
    ⟨h.frames_le, h.base_eq, h.bases_le, h.fp_le, h.below⟩
  by_cases hret : i = .ret
  · subst hret
    have hroom : m.fp < m.stack.size := by
      have hpop : 1 ≤ m.stack.size - m.fp := hpops
      omega
    obtain ⟨v, frame, hback, hframe, rfl⟩ := ret_eq_ok hexec
    by_cases hnested : s.frames.size < m.frames.size
    · exact .inl (hnext.returned hframe hroom hnested).settle
    · have hleft := hnext.left (v := v) hframe hroom (Nat.le_of_not_lt hnested)
      refine .inr ⟨v, hdecode, hback, ?_⟩
      show Left s v (Machine.settle _)
      rw [settle_eq]
      exact ⟨hleft.stack_eq, hleft.frames_eq, hleft.saved⟩
  · left
    by_cases hcall : ∃ target count, i = .call target count
    · obtain ⟨target, count, rfl⟩ := hcall
      obtain ⟨hcount, rfl⟩ := call_eq_ok hexec
      exact (hnext.entered target hcount).settle
    · have honframe := onFrame_exec (fun target count hi => hcall ⟨target, count, hi⟩) hret
      have hroom : m.fp + i.pops ≤ m.stack.size := by omega
      exact (hnext.of_stays (honframe _ _ _ hroom hexec) hroom).settle

end Inside

theorem stepped_succ (n : Nat) (m : Machine) :
    stepped (n + 1) m = reached (step (stepped n m)) := by
  induction n generalizing m with
  | zero => rfl
  | succ n ih => exact ih (reached (step m))

theorem inside_stepped {s : Machine} (hs : s.fp ≤ s.stack.size) {n : Nat}
    (hmodest : ∀ j < n, (stepped j s).Modest)
    (hdepth : ∀ j ≤ n, (stepped j s).frames.size + 1 ≠ s.frames.size) : Inside s (stepped n s) := by
  induction n with
  | zero => exact Inside.refl hs
  | succ n ih =>
    have hbefore := ih (fun j hj => hmodest j (by omega)) fun j hj => hdepth j (by omega)
    rcases hbefore.step (hmodest n (Nat.lt_succ_self n)) with hinside | ⟨v, -, -, hleft⟩
    · rw [stepped_succ]
      exact hinside
    · exfalso
      apply hdepth (n + 1) (Nat.le_refl _)
      have hsaved : s.frames.size ≠ 0 := fun hzero => by
        have hnone : s.frames.back? = none := by simp [Array.back?, hzero]
        rw [hleft.saved] at hnone
        cases hnone
      rw [stepped_succ, hleft.frames_eq, Array.size_pop]
      omega

/-- A machine calls a function and goes on by steps that succeed, each of which finds on the current
frame the words that it pops, until for the first time no more calls are open than before. Then the
last step was a return, its word stands in the place of the arguments, and the frame base, the
pointer and the open calls are those of the caller behind the call. On the way nothing below the
arguments was altered. -/
theorem call_returns {s s₀ : Machine} {r : Nat × Instruction} {target count : Word} {n : Nat}
    (hcall : Instruction.decode s.program s.ip = .ok (.call target count))
    (hstep : step s = .ok r s₀) (hmodest : ∀ j < n, (stepped j s₀).Modest)
    (hopen : ∀ j < n, (stepped j s₀).frames.size ≠ s.frames.size)
    (hclosed : (stepped n s₀).frames.size = s.frames.size) :
    count.toNat ≤ s.stack.size ∧
    (∃ last v, n = last + 1 ∧
      Instruction.decode (stepped last s₀).program (stepped last s₀).ip = .ok .ret ∧
      (stepped last s₀).stack.back? = some v ∧
      (stepped n s₀).stack.toList = s.stack.toList.take (s.stack.size - count.toNat) ++ [v] ∧
      (stepped n s₀).fp = s.fp ∧
      (stepped n s₀).ip = s.ip + (Instruction.call target count).size ∧
      (stepped n s₀).frames = s.frames) ∧
    ∀ j < n, s.stack.toList.take (s.stack.size - count.toNat) <+: (stepped j s₀).stack.toList := by
  obtain ⟨i, m₁, hdecode, -, hexec, rfl⟩ := step_eq_ok hstep
  obtain rfl : i = .call target count := Except.ok.inj (hdecode.symm.trans hcall)
  obtain ⟨hcount, rfl⟩ := call_eq_ok hexec
  have hsize : count.toNat ≤ s.stack.size := by
    have hle : count.toNat ≤ s.stack.size - s.fp := hcount
    omega
  generalize hs₀ : (entered target count
    { s with ip := s.ip + (Instruction.call target count).size }).settle = s₀ at *
  have hstack : s₀.stack = s.stack := by rw [← hs₀, settle_eq]; rfl
  have hfp : s₀.fp = s.stack.size - count.toNat := by rw [← hs₀, settle_eq]; rfl
  have hframes : s₀.frames = s.frames.push ⟨s.ip + (Instruction.call target count).size, s.fp⟩ := by
    rw [← hs₀, settle_eq]
    rfl
  have hdepth : s₀.frames.size = s.frames.size + 1 := by rw [hframes, Array.size_push]
  have hinside : ∀ j < n, Inside s₀ (stepped j s₀) := by
    intro j hj
    apply inside_stepped
    · rw [hfp, hstack]
      omega
    · exact fun l hl => hmodest l (by omega)
    · intro l hl hsame
      apply hopen l (by omega)
      omega
  have hbelow : s₀.stack.toList.take s₀.fp = s.stack.toList.take (s.stack.size - count.toNat) := by
    rw [hstack, hfp]
  refine ⟨hsize, ?_, ?_⟩
  · -- the call is open at first, so there is a last step
    obtain ⟨last, rfl⟩ : ∃ last, n = last + 1 := by
      apply Nat.exists_eq_succ_of_ne_zero
      rintro rfl
      have hsame : s₀.frames.size = s.frames.size := hclosed
      omega
    rw [stepped_succ] at hclosed ⊢
    have hlast := hinside last (Nat.lt_succ_self last)
    rcases hlast.step (hmodest last (Nat.lt_succ_self last)) with hstays | ⟨v, hret, hback, hleft⟩
    · exfalso
      have hle := hstays.frames_le.length_le
      rw [Array.length_toList, Array.length_toList] at hle
      omega
    · have hsaved := hleft.saved
      have hpop := hleft.frames_eq
      rw [hframes, Array.back?_push, Option.some.injEq, Frame.mk.injEq] at hsaved
      rw [hframes, Array.pop_push] at hpop
      exact ⟨last, v, rfl, hret, hback, hleft.stack_eq.trans (congrArg (· ++ [v]) hbelow),
        hsaved.2.symm, hsaved.1.symm, hpop⟩
  · intro j hj
    rw [← hbelow, ← (hinside j hj).below]
    exact List.take_prefix _ _

/-- A function of one argument that adds two to it by another function, and stores the sum over its
argument. -/
def nestedProgram : Array UInt8 :=
  Instruction.encodeAll [.push (.ofNat 7), .push (.ofNat 5), .call (.ofNat 36) (.ofNat 1), .noop,
    .sload (.ofNat 0), .push (.ofNat 2), .call (.ofNat 81) (.ofNat 2), .sstore (.ofNat 0), .ret,
    .iadd, .ret]

def nestedCaller : Machine := stepped 2 (load nestedProgram .standard)

def nestedStart : Machine := reached (step nestedCaller)

set_option maxRecDepth 4000 in
/-- The nested call reads and the store overwrites words of the outer frame only. -/
theorem call_returns_nested :
    (∀ j < 7, (stepped j nestedStart).Modest ∧ (stepped j nestedStart).frames.size ≠ 0) ∧
    (stepped 7 nestedStart).frames.size = 0 ∧
    ∃ v, (stepped 7 nestedStart).stack.toList = [.ofNat 7] ++ [v] ∧
      (stepped 7 nestedStart).fp = 0 ∧ (stepped 7 nestedStart).ip = 35 := by
  have hmodest : ∀ j < 7, (stepped j nestedStart).Modest := by
    intro j hj
    have hcases : j = 0 ∨ j = 1 ∨ j = 2 ∨ j = 3 ∨ j = 4 ∨ j = 5 ∨ j = 6 := by omega
    rcases hcases with rfl | rfl | rfl | rfl | rfl | rfl | rfl <;> exact ⟨_, _, rfl, by decide⟩
  have hopen : ∀ j < 7, (stepped j nestedStart).frames.size ≠ 0 := by decide
  have hclosed : (stepped 7 nestedStart).frames.size = 0 := by decide
  obtain ⟨-, ⟨last, v, -, -, -, hstack, hfp, hip, -⟩, -⟩ := call_returns (s := nestedCaller)
    (r := (18, .call (.ofNat 36) (.ofNat 1))) (by rfl) (by rfl) hmodest hopen hclosed
  exact ⟨fun j hj => ⟨hmodest j hj, hopen j hj⟩, hclosed, v, hstack, hfp, hip⟩

end Machine
end EdeLang
