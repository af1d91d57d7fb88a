import EdeLang.Proofs.Machine.Effect

/-!
# Limits

A machine looks at its limits only to refuse what would exceed them. So some limits are enough for
any number of steps, and a run that no limit stops is the same under all larger ones. No step
changes the program, and each keeps the blocks of the heap and adds at most one.
-/

namespace EdeLang

/-- Limits are compared one by one. -/
instance : LE Limits :=
  ⟨fun l l' => l.stack ≤ l'.stack ∧ l.frames ≤ l'.frames ∧ l.heap ≤ l'.heap⟩

namespace Limits

theorem le_refl (l : Limits) : l ≤ l := ⟨Nat.le_refl _, Nat.le_refl _, Nat.le_refl _⟩

protected def max (l l' : Limits) : Limits :=
  ⟨Nat.max l.stack l'.stack, Nat.max l.frames l'.frames, Nat.max l.heap l'.heap⟩

theorem le_max_left (l l' : Limits) : l ≤ l.max l' :=
  ⟨Nat.le_max_left .., Nat.le_max_left .., Nat.le_max_left ..⟩

theorem le_max_right (l l' : Limits) : l' ≤ l.max l' :=
  ⟨Nat.le_max_right .., Nat.le_max_right .., Nat.le_max_right ..⟩

end Limits

namespace Machine

def withLimits (m : Machine) (l : Limits) : Machine :=
  { m with heap := { m.heap with limit := l.heap }, limits := l }

theorem settle_withLimits (m : Machine) (l : Limits) :
    (m.withLimits l).settle = m.settle.withLimits l := by
  unfold settle
  split <;> rename_i h
  · rw [if_pos (show m.exit.isNone ∧ m.ip = m.program.size from h)]
    rfl
  · rw [if_neg (show ¬ (m.exit.isNone ∧ m.ip = m.program.size) from h)]

theorem load_withLimits (program : Array UInt8) (l l' : Limits) :
    (load program l).withLimits l' = load program l' := by
  unfold load
  rw [← settle_withLimits]
  rfl

section Results

variable {α β : Type}

/-- The machine that an action leaves. -/
def reached : EStateM.Result Fault Machine α → Machine
  | .ok _ m | .error _ m => m

def relimit (l : Limits) : EStateM.Result Fault Machine α → EStateM.Result Fault Machine α
  | .ok a m => .ok a (m.withLimits l)
  | .error e m => .error e (m.withLimits l)

/-- A limit stopped the action. -/
def Refused : EStateM.Result Fault Machine α → Prop
  | .ok _ _ => False
  | .error e _ => e.isLimit

@[simp]
theorem refused_relimit {l : Limits} {r : EStateM.Result Fault Machine α} :
    Refused (relimit l r) ↔ Refused r := by
  cases r <;> rfl

@[simp]
theorem relimit_relimit {l l' : Limits} {r : EStateM.Result Fault Machine α} :
    relimit l' (relimit l r) = relimit l' r := by
  cases r <;> rfl

/-- The second machine has the program and the blocks of the first, and at most so many more
blocks. -/
structure Keeps (k : Nat) (m m' : Machine) : Prop where
  program_eq : m'.program = m.program
  le_size : m.heap.blocks.size ≤ m'.heap.blocks.size
  size_le : m'.heap.blocks.size ≤ m.heap.blocks.size + k

theorem keeps_zero_iff {m m' : Machine} : Keeps 0 m m' ↔
    m'.program = m.program ∧ m'.heap.blocks.size = m.heap.blocks.size :=
  ⟨fun h => ⟨h.program_eq, Nat.le_antisymm h.size_le h.le_size⟩, fun h => ⟨h.1, h.2.ge, h.2.le⟩⟩

theorem Keeps.trans {j k : Nat} {m m' m'' : Machine} (h : Keeps j m m') (h' : Keeps k m' m'') :
    Keeps (j + k) m m'' := by
  refine ⟨h'.program_eq.trans h.program_eq, h.le_size.trans h'.le_size, ?_⟩
  have hfirst := h.size_le
  have hsecond := h'.size_le
  omega

theorem Keeps.mono {j k : Nat} {m m' : Machine} (h : Keeps j m m') (hjk : j ≤ k) :
    Keeps k m m' :=
  ⟨h.program_eq, h.le_size, h.size_le.trans (Nat.add_le_add_left hjk _)⟩

/-- The action does not look at the limits, and it allocates no block. -/
structure Unlimited (x : Exec α) : Prop where
  not_refused : ∀ m : Machine, ¬ Refused (x m)
  steady : ∀ (m : Machine) l, x (m.withLimits l) = relimit l (x m)
  keeps : ∀ m : Machine, Keeps 0 m (reached (x m))

/-- The action looks at the limits only to refuse what exceeds them, and it allocates at most the
given number of blocks. -/
structure Tame (k : Nat) (x : Exec α) : Prop where
  enough : ∀ m : Machine, ∃ l, ¬ Refused (x (m.withLimits l))
  steady : ∀ (m : Machine) (l l' : Limits), l ≤ l' → ¬ Refused (x (m.withLimits l)) →
    x (m.withLimits l') = relimit l' (x (m.withLimits l))
  keeps : ∀ m : Machine, Keeps k m (reached (x m))

variable {x : Exec α} {f : α → Exec β} {j k : Nat}

theorem Unlimited.tame (h : Unlimited x) : Tame 0 x where
  enough m := ⟨m.limits, by
    rw [h.steady, refused_relimit]
    exact h.not_refused m⟩
  steady m l l' _ _ := by rw [h.steady, h.steady, relimit_relimit]
  keeps := h.keeps

theorem Tame.mono (h : Tame j x) (hjk : j ≤ k) : Tame k x :=
  ⟨h.enough, h.steady, fun m => (h.keeps m).mono hjk⟩

theorem Tame.one (h : Tame 0 x) : Tame 1 x := h.mono (Nat.zero_le 1)

theorem Tame.bind (hx : Tame j x) (hf : ∀ a, Tame k (f a)) : Tame (j + k) (x >>= f) where
  enough m := by
    obtain ⟨l, hl⟩ := hx.enough m
    cases hr : x (m.withLimits l) with
    | error e m' =>
      refine ⟨l, ?_⟩
      rw [bind_error hr]
      rwa [hr] at hl
    | ok a m' =>
      obtain ⟨l', hl'⟩ := (hf a).enough m'
      refine ⟨l.max l', ?_⟩
      have hok := hx.steady m l _ (l.le_max_left l') hl
      rw [hr] at hok
      rw [bind_ok hok, (hf a).steady m' l' _ (l.le_max_right l') hl', refused_relimit]
      exact hl'
  steady m l l' hle hnot := by
    cases hr : x (m.withLimits l) with
    | error e m' =>
      rw [bind_error hr] at hnot ⊢
      have herror := hx.steady m l l' hle (by rwa [hr])
      rw [hr] at herror
      rw [bind_error herror]
      rfl
    | ok a m' =>
      have hfirst : ¬ Refused (x (m.withLimits l)) := by simp [hr, Refused]
      have hok := hx.steady m l l' hle hfirst
      have hkept := hx.steady m l l l.le_refl hfirst
      rw [hr] at hok hkept
      rw [bind_ok hr] at hnot ⊢
      rw [bind_ok hok]
      -- the machine that the first part leaves is under the same limits as the one before it
      obtain ⟨_, hm'⟩ : a = a ∧ m' = m'.withLimits l := by simpa [relimit] using hkept
      rw [hm'] at hnot ⊢
      exact (hf a).steady m' l l' hle hnot
  keeps m := by
    have hfirst := hx.keeps m
    cases hr : x m with
    | error e m' =>
      rw [bind_error hr]
      rw [hr] at hfirst
      exact hfirst.mono (Nat.le_add_right j k)
    | ok a m' =>
      rw [bind_ok hr]
      rw [hr] at hfirst
      exact hfirst.trans ((hf a).keeps m')

end Results

section Unlimited

variable {α : Type}

theorem Unlimited.of_forall {x : Exec α} (h : ∀ m : Machine, ¬ Refused (x m) ∧
    (∀ l, x (m.withLimits l) = relimit l (x m)) ∧ (reached (x m)).program = m.program ∧
    (reached (x m)).heap.blocks.size = m.heap.blocks.size) : Unlimited x :=
  ⟨fun m => (h m).1, fun m => (h m).2.1, fun m => keeps_zero_iff.mpr (h m).2.2⟩

theorem unlimited_pure (a : α) : Unlimited (pure a : Exec α) :=
  ⟨fun _ => id, fun _ _ => rfl, fun _ => keeps_zero_iff.mpr ⟨rfl, rfl⟩⟩

theorem unlimited_throw {e : Fault} (he : ¬ e.isLimit) : Unlimited (throw e : Exec α) :=
  ⟨fun _ => he, fun _ _ => rfl, fun _ => keeps_zero_iff.mpr ⟨rfl, rfl⟩⟩

theorem unlimited_modify {f : Machine → Machine}
    (hf : ∀ m l, f (m.withLimits l) = (f m).withLimits l)
    (hprogram : ∀ m, (f m).program = m.program) (hheap : ∀ m, (f m).heap = m.heap) :
    Unlimited (modify f : Exec Unit) where
  not_refused _ := id
  steady m l := congrArg (EStateM.Result.ok ()) (hf m l)
  keeps m := keeps_zero_iff.mpr ⟨hprogram m, congrArg (·.blocks.size) (hheap m)⟩

theorem unlimited_pop : Unlimited pop := by
  refine .of_forall fun m => ?_
  cases h : m.stack.back? <;>
    simp [pop, withLimits, h, relimit, Refused, reached, Fault.isLimit]

private def readSlot (k : Word) : Exec Word := fun m =>
  match m.slot? k with
  | none => .error (.slotOutOfBounds k.toNat) m
  | some i =>
    match m.stack[i]? with
    | some w => .ok w m
    | none => .error (.panic (.index i m.stack.size)) m

private theorem loadSlot_eq (k : Word) : loadSlot k = readSlot k >>= push := by
  funext m
  cases h : m.slot? k with
  | none => simp [loadSlot, readSlot, bind, EStateM.bind, h]
  | some i => cases hi : m.stack[i]? <;> simp [loadSlot, readSlot, bind, EStateM.bind, h, hi]

private theorem unlimited_readSlot (k : Word) : Unlimited (readSlot k) := by
  refine .of_forall fun m => ?_
  by_cases h : m.fp + k.toNat < m.stack.size <;>
    simp [readSlot, slot?, withLimits, h, relimit, Refused, reached, Fault.isLimit]

theorem unlimited_setSlot (k w : Word) : Unlimited (setSlot k w) := by
  refine .of_forall fun m => ?_
  by_cases h : m.fp + k.toNat < m.stack.size <;>
    simp [setSlot, slot?, withLimits, h, relimit, Refused, reached, Fault.isLimit]

theorem unlimited_leave : Unlimited leave := by
  refine .of_forall fun m => ?_
  cases h : m.frames.back? <;>
    simp [leave, withLimits, h, relimit, Refused, reached, Fault.isLimit]

theorem unlimited_popBlock (count : Word) : Unlimited (popBlock count) := by
  refine .of_forall fun m => ?_
  by_cases h : m.stack.size < count.toNat
  · simp [popBlock, withLimits, h, relimit, Refused, reached, Fault.isLimit]
  · simp [popBlock, withLimits, h, difference_of_le (Nat.le_of_not_lt h), relimit, Refused, reached]

theorem unlimited_fromHeap {op : Heap → Except Fault α}
    (hop : ∀ h : Heap, ∀ n, op { h with limit := n } = op h)
    (hfault : ∀ h e, op h = .error e → ¬ e.isLimit) : Unlimited (fromHeap op) := by
  refine .of_forall fun m => ?_
  have hview : ∀ l, op (m.withLimits l).heap = op m.heap := fun l => hop m.heap l.heap
  cases h : op m.heap with
  | ok a => simp [fromHeap, hview, h, relimit, Refused, reached]
  | error e =>
    have he := hfault _ _ h
    simp [fromHeap, hview, h, relimit, Refused, reached, he]

theorem unlimited_onHeap {op : Heap → Except Fault Heap}
    (hop : ∀ h : Heap, ∀ n, op { h with limit := n } =
      (op h).map fun h' => { h' with limit := n })
    (hfault : ∀ h e, op h = .error e → ¬ e.isLimit)
    (hsize : ∀ h h', op h = .ok h' → h'.blocks.size = h.blocks.size) :
    Unlimited (onHeap fun h => (op h).map (·, ())) := by
  refine .of_forall fun m => ?_
  have hview : ∀ l, op (m.withLimits l).heap =
      (op m.heap).map fun h' => { h' with limit := l.heap } := fun l => hop m.heap l.heap
  cases h : op m.heap with
  | ok h' =>
    refine ⟨?_, fun l => ?_, ?_, ?_⟩
    · simp [onHeap, h, Refused, Except.map]
    · simp only [onHeap, hview, h, relimit, Except.map]
      rfl
    · simp [onHeap, h, reached, Except.map]
    · simpa [onHeap, h, reached, Except.map] using hsize _ _ h
  | error e =>
    have he := hfault _ _ h
    simp [onHeap, hview, h, relimit, Refused, reached, Except.map, he]

theorem unlimited_get (handle : Int64) : Unlimited (fromHeap fun h => h.get handle) := by
  refine unlimited_fromHeap (fun _ _ => rfl) fun h e he => ?_
  unfold Heap.get at he
  split at he
  · simp at he
  · obtain rfl := Except.error.inj he
    simp [Fault.isLimit]

theorem unlimited_hload (handle index : Int64) :
    Unlimited (fromHeap fun h => h.load handle index) := by
  refine unlimited_fromHeap (fun _ _ => rfl) fun h e he => ?_
  unfold Heap.load Heap.get at he
  grind [Fault.isLimit]

theorem unlimited_free (handle : Int64) :
    Unlimited (onHeap fun h => (h.free handle).map (·, ())) := by
  refine unlimited_onHeap (fun h n => ?_) (fun h e he => ?_) fun h h' hh' => ?_
  · unfold Heap.free
    cases Heap.index? handle with
    | none => rfl
    | some i =>
      cases hi : (h.blocks[i]?).join with
      | none => simp [hi, Except.map]
      | some block => cases hused : difference h.used block.size <;> simp [hi, hused, Except.map]
  · unfold Heap.free difference at he
    grind [Fault.isLimit]
  · unfold Heap.free at hh'
    grind

theorem unlimited_hstore (handle index : Int64) (value : Word) :
    Unlimited (onHeap fun h => (h.store handle index value).map (·, ())) := by
  refine unlimited_onHeap (fun h n => ?_) (fun h e he => ?_) fun h h' hh' => ?_
  · unfold Heap.store
    cases Heap.index? handle with
    | none => rfl
    | some i =>
      cases hi : (h.blocks[i]?).join with
      | none => simp [hi, Except.map]
      | some block => cases hcell : Heap.cell? block index <;> simp [hi, hcell, Except.map]
  · unfold Heap.store at he
    grind [Fault.isLimit]
  · unfold Heap.store at hh'
    grind

end Unlimited

theorem tame_push (w : Word) : Tame 0 (push w) where
  enough m := ⟨⟨m.stack.size + 1, 0, 0⟩, by simp [push, withLimits, Refused]⟩
  steady m l l' hle hnot := by
    by_cases h : m.stack.size < l.stack
    · have h' : m.stack.size < l'.stack := h.trans_le hle.1
      simp [push, withLimits, h, h', relimit]
    · simp [push, withLimits, h, Refused, Fault.isLimit] at hnot
  keeps m := by
    by_cases h : m.stack.size < m.limits.stack <;> simp [push, h, reached, keeps_zero_iff]

theorem tame_loadSlot (k : Word) : Tame 0 (loadSlot k) := by
  rw [loadSlot_eq]
  exact (unlimited_readSlot k).tame.bind tame_push

theorem call_of_lt {m : Machine} (target count : Word)
    (h : ¬ m.limits.frames ≤ m.frames.size) : call target count m =
    if m.stack.size - min m.fp m.stack.size < count.toNat then .error .stackUnderflow m
    else .ok () { m with
      frames := m.frames.push ⟨m.ip, m.fp⟩
      fp := m.stack.size - count.toNat
      ip := target.toNat } := by
  have hroom : difference m.stack.size (min m.fp m.stack.size) =
      .ok (m.stack.size - min m.fp m.stack.size) := difference_of_le (Nat.min_le_right _ _)
  rw [call, if_neg h, hroom]
  by_cases hcount : m.stack.size - min m.fp m.stack.size < count.toNat
  · simp only [if_pos hcount]
  · have hbase : difference m.stack.size count.toNat = .ok (m.stack.size - count.toNat) :=
      difference_of_le (by omega)
    simp only [if_neg hcount, hbase]

theorem tame_call (target count : Word) : Tame 0 (call target count) where
  enough m := ⟨⟨0, m.frames.size + 1, 0⟩, by
    rw [call_of_lt target count (by simp [withLimits])]
    split <;> simp [Refused, Fault.isLimit]⟩
  steady m l l' hle hnot := by
    by_cases h : l.frames ≤ m.frames.size
    · simp [call, withLimits, h, Refused, Fault.isLimit] at hnot
    · have h' : ¬ l'.frames ≤ m.frames.size := fun h' => h (hle.2.1.trans h')
      rw [call_of_lt target count (by simpa [withLimits] using h'),
        call_of_lt target count (by simpa [withLimits] using h)]
      by_cases hcount : m.stack.size - min m.fp m.stack.size < count.toNat <;>
        simp [withLimits, hcount, relimit]
  keeps m := by
    rw [keeps_zero_iff]
    by_cases h : m.limits.frames ≤ m.frames.size
    · simp [call, h, reached]
    · rw [call_of_lt target count h]
      split <;> simp [reached]

theorem tame_allocWith (size : Nat) (block : Unit → Array Word) :
    Tame 1 (onHeap fun h => h.allocWith size block) where
  enough m := ⟨⟨0, 0, m.heap.used + size⟩, by
    simp [onHeap, Heap.allocWith, withLimits, Refused]⟩
  steady m l l' hle hnot := by
    by_cases h : m.heap.used + size ≤ l.heap
    · have h' := h.trans hle.2.2
      simp [onHeap, Heap.allocWith, withLimits, h, h', relimit]
    · simp [onHeap, Heap.allocWith, withLimits, h, Refused, Fault.isLimit] at hnot
  keeps m := by
    by_cases h : m.heap.used + size ≤ m.heap.limit
    · constructor <;> simp [onHeap, Heap.allocWith, h, reached]
    · constructor <;> simp [onHeap, Heap.allocWith, h, reached]

theorem tame_allocZeroed (count : Nat) : Tame 1 (onHeap fun h => h.allocZeroed count) := by
  by_cases hcount : Heap.maxBlock < count
  · constructor
    · intro m
      exact ⟨⟨0, 0, m.heap.used + count⟩, by
        simp [onHeap, Heap.allocZeroed, withLimits, hcount, Refused, Fault.isLimit]⟩
    · intro m l l' hle hnot
      by_cases h : m.heap.used + count ≤ l.heap
      · have h' := h.trans hle.2.2
        simp [onHeap, Heap.allocZeroed, withLimits, hcount, h, h', relimit]
      · simp [onHeap, Heap.allocZeroed, Heap.allocWith, withLimits, h, Refused,
          Fault.isLimit] at hnot
    · intro m
      by_cases h : m.heap.used + count ≤ m.heap.limit <;> constructor <;>
        simp [onHeap, Heap.allocZeroed, Heap.allocWith, hcount, h, reached]
  · simpa [Heap.allocZeroed, hcount] using
      tame_allocWith count fun _ => Array.replicate count Word.zero

theorem tame_pushBlock (block : Array Word) : Tame 1 (pushBlock block) :=
  (tame_allocWith block.size fun _ => block).bind fun _ => tame_push _

theorem tame_popInt : Tame 0 popInt := unlimited_pop.tame.bind fun _ => (unlimited_pure _).tame

theorem tame_popDouble : Tame 0 popDouble :=
  unlimited_pop.tame.bind fun _ => (unlimited_pure _).tame

theorem tame_jump (target : Word) : Tame 0 (jump target) :=
  (unlimited_modify (f := fun m => { m with ip := target.toNat }) (fun _ _ => rfl)
    (fun _ => rfl) fun _ => rfl).tame

theorem tame_print (text : String) : Tame 0 (print text) :=
  (unlimited_modify (f := fun m => { m with output := m.output ++ text }) (fun _ _ => rfl)
    (fun _ => rfl) fun _ => rfl).tame

theorem tame_intOp {op : Int64 → Int64 → Exec Int64} (hop : ∀ l r, Tame 0 (op l r)) :
    Tame 0 (intOp op) :=
  tame_popInt.bind fun _ => tame_popInt.bind fun _ => (hop _ _).bind fun _ => tame_push _

theorem tame_doubleOp {op : Double → Double → Exec Double} (hop : ∀ l r, Tame 0 (op l r)) :
    Tame 0 (doubleOp op) :=
  tame_popDouble.bind fun _ => tame_popDouble.bind fun _ => (hop _ _).bind fun _ => tame_push _

theorem tame_compareOp (op : Word → Word → Bool) : Tame 0 (compareOp op) :=
  unlimited_pop.tame.bind fun _ => unlimited_pop.tame.bind fun _ => tame_push _

theorem tame_jumpIf (expected : Bool) (target : Word) : Tame 0 (jumpIf expected target) := by
  have hthen : ∀ w : Word, Tame 0 (if w.toBool == expected then jump target else pure ()) := by
    intro w
    split
    · exact tame_jump target
    · exact (unlimited_pure ()).tame
  exact unlimited_pop.tame.bind hthen

private theorem tame_guarded {α : Type} (p : Prop) [Decidable p] (a : α) :
    Tame 0 (if p then throw .divisionByZero else pure a) := by
  split
  · exact (unlimited_throw (by simp [Fault.isLimit])).tame
  · exact (unlimited_pure a).tame

theorem tame_system (code : Syscall) : Tame 1 (system code) := by
  cases code with
  | exit =>
    have hexit : ∀ code : Int64, Tame 0 (modify fun m => { m with exit := some code }) :=
      fun code => (unlimited_modify (f := fun m => { m with exit := some code }) (fun _ _ => rfl)
        (fun _ => rfl) fun _ => rfl).tame
    exact .one (tame_popInt.bind hexit)
  | printc => exact .one (tame_popInt.bind fun _ => tame_print _)
  | prints =>
    exact .one (tame_popInt.bind fun _ => (unlimited_get _).tame.bind fun _ => tame_print _)
  | malloc => exact tame_popInt.bind fun _ => (tame_allocZeroed _).bind fun _ => tame_push _
  | free => exact .one (tame_popInt.bind fun _ => (unlimited_free _).tame)

theorem tame_exec (i : Instruction) : Tame 1 (exec i) := by
  cases i with
  | noop => exact .one (unlimited_pure ()).tame
  | push value => exact .one (tame_push value)
  | pop => exact .one (unlimited_pop.tame.bind fun _ => (unlimited_pure ()).tame)
  | iadd | isub | imul => exact .one (tame_intOp fun _ _ => (unlimited_pure _).tame)
  | idiv => exact .one (tame_intOp fun _ _ => tame_guarded _ _)
  | dadd | dsub | dmul => exact .one (tame_doubleOp fun _ _ => (unlimited_pure _).tame)
  | ddiv => exact .one (tame_doubleOp fun _ _ => tame_guarded _ _)
  | sload k => exact .one (tame_loadSlot k)
  | sstore k => exact .one (unlimited_pop.tame.bind fun _ => (unlimited_setSlot _ _).tame)
  | eq | neq => exact .one (tame_compareOp _)
  | jump target => exact .one (tame_jump target)
  | jumpz target | jumpnz target => exact .one (tame_jumpIf _ target)
  | syscall code => exact tame_system code
  | swap =>
    exact .one (unlimited_pop.tame.bind fun _ => unlimited_pop.tame.bind fun _ =>
      (tame_push _).bind fun _ => tame_push _)
  | call target count => exact .one (tame_call target count)
  | ret =>
    exact .one (unlimited_pop.tame.bind fun _ => unlimited_leave.tame.bind fun _ => tame_push _)
  | pack count => exact (unlimited_popBlock count).tame.bind fun _ => tame_pushBlock _
  | scat =>
    exact tame_popInt.bind fun _ => tame_popInt.bind fun _ => (unlimited_get _).tame.bind fun _ =>
      (unlimited_get _).tame.bind fun _ => tame_pushBlock _
  | hload =>
    exact .one (tame_popInt.bind fun _ => tame_popInt.bind fun _ =>
      (unlimited_hload _ _).tame.bind fun _ => tame_push _)
  | hstore =>
    exact .one (unlimited_pop.tame.bind fun _ => tame_popInt.bind fun _ =>
      tame_popInt.bind fun _ => (unlimited_hstore _ _ _).tame)

def fetch : Exec (Nat × Instruction) := fun m =>
  match Instruction.decode m.program m.ip with
  | .error e => .error (.decode e) m
  | .ok i => .ok (m.ip, i) { m with ip := m.ip + i.size }

private theorem unlimited_fetch : Unlimited fetch := by
  refine .of_forall fun m => ?_
  cases h : Instruction.decode m.program m.ip <;>
    simp [fetch, withLimits, h, relimit, Refused, reached, Fault.isLimit]

theorem step_eq : step = (do
    let next ← fetch
    exec next.2
    modify settle
    return next) := by
  funext m
  cases h : Instruction.decode m.program m.ip with
  | error e => simp [step, fetch, h, bind, EStateM.bind]
  | ok i =>
    cases hexec : exec i { m with ip := m.ip + i.size } <;>
      simp [step, fetch, h, hexec, bind, EStateM.bind]
    rfl

theorem tame_step : Tame 1 step := by
  have hsettle : Unlimited (modify settle : Exec Unit) :=
    unlimited_modify (fun m l => m.settle_withLimits l) (fun m => by unfold settle; split <;> rfl)
      fun m => by unfold settle; split <;> rfl
  rw [step_eq]
  exact unlimited_fetch.tame.bind fun next => (tame_exec next.2).bind fun _ =>
    hsettle.tame.bind fun _ => (unlimited_pure next).tame

private theorem unlimited_gets {α : Type} {f : Machine → α}
    (hf : ∀ m l, f (m.withLimits l) = f m) :
    Unlimited (fun m => .ok (f m) m : Exec α) :=
  ⟨fun _ => id, fun m l => by rw [hf]; rfl, fun _ => keeps_zero_iff.mpr ⟨rfl, rfl⟩⟩

private theorem run_succ (t : Nat) : run (t + 1) = (do
    let ended ← (fun m => .ok m.isTerminated m : Exec Bool)
    if ended then (fun m => .ok m.status m : Exec Status)
    else
      let _ ← step
      run t) := by
  funext m
  cases hend : m.isTerminated with
  | true => simp [run, hend, bind, EStateM.bind]
  | false => cases hstep : step m <;> simp [run, hend, hstep, bind, EStateM.bind]

theorem tame_run (t : Nat) : Tame t (run t) := by
  have hstatus : Unlimited (fun m => .ok m.status m : Exec Status) := unlimited_gets fun _ _ => rfl
  induction t with
  | zero => exact hstatus.tame
  | succ t ih =>
    have hended : Unlimited (fun m => .ok m.isTerminated m : Exec Bool) :=
      unlimited_gets fun _ _ => rfl
    rw [run_succ]
    refine (hended.tame.bind fun ended => ?_).mono (Nat.zero_add _).le
    cases ended with
    | true => exact hstatus.tame.mono (Nat.zero_le _)
    | false => exact (tame_step.bind fun _ => ih).mono (Nat.add_comm 1 t).le

theorem run_add (n k : Nat) (m : Machine) : run (n + k) m =
    match run n m with
    | .ok _ m' => run k m'
    | .error e m' => .error e m' := by
  induction n generalizing m with
  | zero => simp [run]
  | succ n ih =>
    rw [Nat.add_right_comm, run, run]
    cases hend : m.isTerminated with
    | true => cases k <;> simp [run, hend]
    | false => cases hstep : step m <;> simp [hend, hstep, ih]

theorem run_of_exit {m : Machine} {code : Int64} (h : m.exit = some code) (t : Nat) :
    run t m = .ok (.exited code) m := by
  cases t <;> simp [run, isTerminated, status, h]

/-- How the run ended, without the machine. -/
def verdict : EStateM.Result Fault Machine Status → Except Fault Status
  | .ok s _ => .ok s
  | .error e _ => .error e

section Program

variable {program : Array UInt8} {t : Nat}

/-- A run that no limit stops is the same under larger ones. -/
theorem run_load_of_le {l l' : Limits} (hle : l ≤ l') (h : ¬ Refused (run t (load program l))) :
    run t (load program l') = relimit l' (run t (load program l)) := by
  rw [← load_withLimits program l l] at h ⊢
  rw [← load_withLimits program l l']
  exact (tame_run t).steady _ l l' hle h

/-- The machines differ in nothing but their limits. -/
structure Alike (m m' : Machine) : Prop where
  program : m'.program = m.program
  ip : m'.ip = m.ip
  fp : m'.fp = m.fp
  stack : m'.stack = m.stack
  frames : m'.frames = m.frames
  blocks : m'.heap.blocks = m.heap.blocks
  used : m'.heap.used = m.heap.used
  output : m'.output = m.output
  exit : m'.exit = m.exit

theorem alike_relimit (l : Limits) (r : EStateM.Result Fault Machine Status) :
    Alike (reached r) (reached (relimit l r)) := by
  have hlimits : ∀ m : Machine, Alike m (m.withLimits l) := by
    intro m
    constructor <;> rfl
  cases r with
  | ok s m => exact hlimits m
  | error e m => exact hlimits m

theorem verdict_relimit (l : Limits) (r : EStateM.Result Fault Machine Status) :
    verdict (relimit l r) = verdict r := by
  cases r <;> rfl

theorem not_refused_of_verdict {r : EStateM.Result Fault Machine Status}
    (hstack : ∀ n, verdict r ≠ .error (.stackOverflow n))
    (hheap : ∀ n, verdict r ≠ .error (.heapExhausted n)) : ¬ Refused r := by
  cases r with
  | ok s m => exact id
  | error e m =>
    intro hrefused
    cases e with
    | stackOverflow n => exact hstack n rfl
    | heapExhausted n => exact hheap n rfl
    | _ => simp [Refused, Fault.isLimit] at hrefused

/-- A run that ends neither in a stack overflow nor in an exhausted heap ends in the same way under
all larger limits, and leaves the same machine but for them. -/
theorem run_load_alike {l l' : Limits} (hle : l ≤ l')
    (hstack : ∀ n, verdict (run t (load program l)) ≠ .error (.stackOverflow n))
    (hheap : ∀ n, verdict (run t (load program l)) ≠ .error (.heapExhausted n)) :
    verdict (run t (load program l')) = verdict (run t (load program l)) ∧
      Alike (reached (run t (load program l))) (reached (run t (load program l'))) := by
  have hsame := run_load_of_le hle (not_refused_of_verdict hstack hheap)
  rw [hsame]
  exact ⟨verdict_relimit l' _, alike_relimit l' _⟩

/-- A program that packs a word and passes it through a function. -/
def passProgram : Array UInt8 :=
  Instruction.encodeAll
    [.push (.ofNat 7), .pack (.ofNat 1), .call (.ofNat 37) (.ofNat 1), .syscall .exit, .ret]

theorem run_load_alike_passProgram :
    verdict (run 5 (load passProgram ⟨1, 1, 1⟩)) = .ok (.exited 1) ∧
      verdict (run 5 (load passProgram .standard)) = .ok (.exited 1) ∧
      Alike (reached (run 5 (load passProgram ⟨1, 1, 1⟩)))
        (reached (run 5 (load passProgram .standard))) := by
  have hverdict : verdict (run 5 (load passProgram ⟨1, 1, 1⟩)) = .ok (.exited 1) := by
    decide +kernel
  have hle : (⟨1, 1, 1⟩ : Limits) ≤ .standard := ⟨by decide, by decide, by decide⟩
  have hstack : ∀ n, verdict (run 5 (load passProgram ⟨1, 1, 1⟩)) ≠ .error (.stackOverflow n) := by
    simp [hverdict]
  have hheap : ∀ n, verdict (run 5 (load passProgram ⟨1, 1, 1⟩)) ≠ .error (.heapExhausted n) := by
    simp [hverdict]
  have halike := run_load_alike hle hstack hheap
  exact ⟨hverdict, halike.1.trans hverdict, halike.2⟩

/-- Some limits are enough for a number of steps. -/
theorem exists_enough (program : Array UInt8) (t : Nat) :
    ∃ l₀ : Limits, ∀ l, l₀ ≤ l → ¬ Refused (run t (load program l)) := by
  obtain ⟨l₀, h⟩ := (tame_run t).enough (load program .standard)
  rw [load_withLimits] at h
  refine ⟨l₀, fun l hle => ?_⟩
  rwa [run_load_of_le hle h, refused_relimit]

theorem program_reached (program : Array UInt8) (l : Limits) (t : Nat) :
    (reached (run t (load program l))).program = program := by
  have hload : (load program l).program = program := by
    unfold load settle
    split <;> rfl
  exact ((tame_run t).keeps (load program l)).program_eq.trans hload

theorem size_blocks_run_le (program : Array UInt8) (l : Limits) (t : Nat) :
    (reached (run t (load program l))).heap.blocks.size ≤ t := by
  have hempty : (load program l).heap.blocks.size = 0 := by
    unfold load settle
    split <;> rfl
  have hsize := ((tame_run t).keeps (load program l)).size_le
  omega

/-- A short run of a program leaves a machine that words can address. -/
theorem addressable_run (l : Limits) (hprogram : program.size < 2 ^ 63) (ht : t < 2 ^ 63) :
    (reached (run t (load program l))).Addressable where
  program := by rwa [program_reached]
  blocks := (size_blocks_run_le program l t).trans_lt ht

end Program

end Machine
end EdeLang
