import EdeLang.Machine.Console
import EdeLang.Machine.Dump
import EdeLang.Proofs.Machine.Limits

/-!
# Driving a machine

A machine does the same however it is driven. Its instructions append to the printed characters
and never look at them, so nothing changes if an observer takes them on the way: an observed run
stays behind the plain one by the characters that were taken, and by nothing else. The console
shows just these.
-/

namespace EdeLang
namespace Machine

section Printed

variable {α β : Type} {x : Exec α} {f : α → Exec β}

/-- The machine with further characters in front of the printed ones. -/
def withEarlier (text : String) (m : Machine) : Machine := { m with output := text ++ m.output }

def resultWithEarlier (text : String) :
    EStateM.Result Fault Machine α → EStateM.Result Fault Machine α
  | .ok a m => .ok a (m.withEarlier text)
  | .error e m => .error e (m.withEarlier text)

@[simp]
theorem withEarlier_empty (m : Machine) : m.withEarlier "" = m := by
  simp [withEarlier]

theorem withEarlier_withEarlier (m : Machine) (first second : String) :
    (m.withEarlier second).withEarlier first = m.withEarlier (first ++ second) := by
  simp [withEarlier, String.append_assoc]

theorem withEarlier_takeOutput (m : Machine) : m.takeOutput.2.withEarlier m.output = m := by
  simp [takeOutput, withEarlier]

@[simp]
theorem status_withEarlier (m : Machine) (text : String) :
    (m.withEarlier text).status = m.status := rfl

theorem settle_withEarlier (m : Machine) (text : String) :
    (m.withEarlier text).settle = m.settle.withEarlier text := by
  unfold settle
  split <;> rename_i h
  · rw [if_pos (show m.exit.isNone ∧ m.ip = m.program.size from h)]
    rfl
  · rw [if_neg (show ¬ (m.exit.isNone ∧ m.ip = m.program.size) from h)]

/-- The action appends to the printed characters and does not look at them. -/
def Appends (x : Exec α) : Prop :=
  ∀ (m : Machine) (text : String), x (m.withEarlier text) = resultWithEarlier text (x m)

theorem Appends.bind (hx : Appends x) (hf : ∀ a, Appends (f a)) : Appends (x >>= f) := by
  intro m text
  have hfirst := hx m text
  cases hr : x m with
  | error e m' =>
    rw [hr] at hfirst
    rw [bind_error hr, bind_error hfirst]
    rfl
  | ok a m' =>
    rw [hr] at hfirst
    rw [bind_ok hr, bind_ok hfirst]
    exact hf a m' text

theorem appends_pure (a : α) : Appends (pure a : Exec α) := fun _ _ => rfl

theorem appends_throw (e : Fault) : Appends (throw e : Exec α) := fun _ _ => rfl

theorem appends_modify {g : Machine → Machine}
    (hg : ∀ m text, g (m.withEarlier text) = (g m).withEarlier text) :
    Appends (modify g : Exec Unit) :=
  fun m text => congrArg (EStateM.Result.ok ()) (hg m text)

end Printed

section Actions

variable {α : Type}

theorem appends_push (w : Word) : Appends (push w) := by
  intro m text
  by_cases h : m.stack.size < m.limits.stack <;> simp [push, withEarlier, h, resultWithEarlier]

theorem appends_pop : Appends pop := by
  intro m text
  cases h : m.stack.back? <;> simp [pop, withEarlier, h, resultWithEarlier]

theorem appends_popInt : Appends popInt := appends_pop.bind fun _ => appends_pure _

theorem appends_popDouble : Appends popDouble := appends_pop.bind fun _ => appends_pure _

theorem appends_loadSlot (k : Word) : Appends (loadSlot k) := by
  intro m text
  by_cases h : m.fp + k.toNat < m.stack.size
  · have hslot : ∀ m' : Machine, m'.fp = m.fp → m'.stack = m.stack →
        loadSlot k m' = push (m.stack[m.fp + k.toNat]) m' := by
      intro m' hfp hstack
      simp [loadSlot, slot?, hfp, hstack, h]
    rw [hslot m rfl rfl, hslot (m.withEarlier text) rfl rfl]
    exact appends_push _ m text
  · simp [loadSlot, slot?, withEarlier, h, resultWithEarlier]

theorem appends_setSlot (k w : Word) : Appends (setSlot k w) := by
  intro m text
  by_cases h : m.fp + k.toNat < m.stack.size <;>
    simp [setSlot, slot?, withEarlier, h, resultWithEarlier]

theorem appends_call (target count : Word) : Appends (call target count) := by
  intro m text
  by_cases h : m.limits.frames ≤ m.frames.size
  · simp [call, withEarlier, h, resultWithEarlier]
  · have h' : ¬ (m.withEarlier text).limits.frames ≤ (m.withEarlier text).frames.size := h
    rw [call_of_lt target count h, call_of_lt target count h']
    by_cases hcount : m.stack.size - min m.fp m.stack.size < count.toNat <;>
      simp [withEarlier, hcount, resultWithEarlier]

theorem appends_leave : Appends leave := by
  intro m text
  cases h : m.frames.back? <;> simp [leave, withEarlier, h, resultWithEarlier]

theorem appends_popBlock (count : Word) : Appends (popBlock count) := by
  intro m text
  by_cases h : m.stack.size < count.toNat
  · simp [popBlock, withEarlier, h, resultWithEarlier]
  · simp [popBlock, withEarlier, h, difference_of_le (Nat.le_of_not_lt h), resultWithEarlier]

theorem appends_fromHeap (op : Heap → Except Fault α) : Appends (fromHeap op) := by
  intro m text
  cases h : op m.heap <;> simp [fromHeap, withEarlier, h, resultWithEarlier]

theorem appends_onHeap (op : Heap → Except Fault (Heap × α)) : Appends (onHeap op) := by
  intro m text
  cases h : op m.heap <;> simp [onHeap, withEarlier, h, resultWithEarlier]

theorem appends_pushBlock (block : Array Word) : Appends (pushBlock block) :=
  (appends_onHeap _).bind fun _ => appends_push _

theorem appends_jump (target : Word) : Appends (jump target) := appends_modify fun _ _ => rfl

theorem appends_print (added : String) : Appends (print added) :=
  appends_modify fun m text => by simp [withEarlier, String.append_assoc]

theorem appends_intOp {op : Int64 → Int64 → Exec Int64} (hop : ∀ l r, Appends (op l r)) :
    Appends (intOp op) :=
  appends_popInt.bind fun _ => appends_popInt.bind fun _ => (hop _ _).bind fun _ => appends_push _

theorem appends_doubleOp {op : Double → Double → Exec Double} (hop : ∀ l r, Appends (op l r)) :
    Appends (doubleOp op) :=
  appends_popDouble.bind fun _ => appends_popDouble.bind fun _ =>
    (hop _ _).bind fun _ => appends_push _

theorem appends_compareOp (op : Word → Word → Bool) : Appends (compareOp op) :=
  appends_pop.bind fun _ => appends_pop.bind fun _ => appends_push _

theorem appends_jumpIf (expected : Bool) (target : Word) : Appends (jumpIf expected target) := by
  refine appends_pop.bind fun w => ?_
  split
  · exact appends_jump target
  · exact appends_pure ()

private theorem appends_guarded (p : Prop) [Decidable p] (a : α) :
    Appends (if p then throw .divisionByZero else pure a : Exec α) := by
  split
  · exact appends_throw _
  · exact appends_pure a

theorem appends_system (code : Syscall) : Appends (system code) := by
  cases code with
  | exit => exact appends_popInt.bind fun _ => appends_modify fun _ _ => rfl
  | printc => exact appends_popInt.bind fun _ => appends_print _
  | prints =>
    exact appends_popInt.bind fun _ => (appends_fromHeap _).bind fun _ => appends_print _
  | malloc => exact appends_popInt.bind fun _ => (appends_onHeap _).bind fun _ => appends_push _
  | free => exact appends_popInt.bind fun _ => appends_onHeap _

theorem appends_exec (i : Instruction) : Appends (exec i) := by
  cases i with
  | noop => exact appends_pure ()
  | push value => exact appends_push value
  | pop => exact appends_pop.bind fun _ => appends_pure ()
  | iadd | isub | imul => exact appends_intOp fun _ _ => appends_pure _
  | idiv => exact appends_intOp fun _ _ => appends_guarded _ _
  | dadd | dsub | dmul => exact appends_doubleOp fun _ _ => appends_pure _
  | ddiv => exact appends_doubleOp fun _ _ => appends_guarded _ _
  | sload k => exact appends_loadSlot k
  | sstore k => exact appends_pop.bind fun _ => appends_setSlot _ _
  | eq | neq => exact appends_compareOp _
  | jump target => exact appends_jump target
  | jumpz target | jumpnz target => exact appends_jumpIf _ target
  | syscall code => exact appends_system code
  | swap =>
    exact appends_pop.bind fun _ => appends_pop.bind fun _ =>
      (appends_push _).bind fun _ => appends_push _
  | call target count => exact appends_call target count
  | ret => exact appends_pop.bind fun _ => appends_leave.bind fun _ => appends_push _
  | pack count => exact (appends_popBlock count).bind fun _ => appends_pushBlock _
  | scat =>
    exact appends_popInt.bind fun _ => appends_popInt.bind fun _ => (appends_fromHeap _).bind
      fun _ => (appends_fromHeap _).bind fun _ => appends_pushBlock _
  | hload =>
    exact appends_popInt.bind fun _ => appends_popInt.bind fun _ =>
      (appends_fromHeap _).bind fun _ => appends_push _
  | hstore =>
    exact appends_pop.bind fun _ => appends_popInt.bind fun _ =>
      appends_popInt.bind fun _ => appends_onHeap _

theorem appends_step : Appends step := by
  have hfetch : Appends fetch := by
    intro m text
    cases h : Instruction.decode m.program m.ip <;>
      simp [fetch, withEarlier, h, resultWithEarlier]
  have hsettle : Appends (modify settle : Exec Unit) := appends_modify settle_withEarlier
  rw [step_eq]
  exact hfetch.bind fun next => (appends_exec next.2).bind fun _ =>
    hsettle.bind fun _ => appends_pure next

end Actions

section Watched

variable {ε : Type} {observers : List (Observer ε)} {P : String → Array ε → Prop}

/-- The watched machine is the plain one without some characters that were taken from the front of
its output, for which the reported events account. -/
def Trails (P : String → Array ε → Prop) (m watched : Machine) (events : Array ε) : Prop :=
  ∃ taken, m = watched.withEarlier taken ∧ P taken events

/-- A reaction to a phase of a run keeps a watched machine on the trail of the plain one. -/
def Discreet (P : String → Array ε → Prop) (observers : List (Observer ε))
    (react : Observer ε → Machine → Machine × List ε) : Prop :=
  ∀ m watched events, Trails P m watched events →
    Trails P m (Observer.each react observers watched events).1
      (Observer.each react observers watched events).2

/-- A step of the plain machine is a step of one on its trail, with the same outcome. -/
theorem trails_step {m watched : Machine} {events : Array ε} (h : Trails P m watched events) :
    (∃ e m' watched', step m = .error e m' ∧ step watched = .error e watched' ∧
      Trails P m' watched' events) ∨
    ∃ executed m' watched', step m = .ok executed m' ∧ step watched = .ok executed watched' ∧
      Trails P m' watched' events := by
  obtain ⟨taken, rfl, hP⟩ := h
  rw [appends_step watched taken]
  cases step watched with
  | error e watched' => exact .inl ⟨e, _, watched', rfl, rfl, taken, rfl, hP⟩
  | ok executed watched' => exact .inr ⟨executed, _, watched', rfl, rfl, taken, rfl, hP⟩

/-- The end of a watched run: the last reactions at a machine on the trail of the plain one. -/
def EndsAlike (P : String → Array ε → Prop) (observers : List (Observer ε))
    (plain : EStateM.Result Fault Machine Status) (w : Watched ε) : Prop :=
  ∃ watched events, Trails P (reached plain) watched events ∧
    w = ⟨(Observer.each Observer.finish observers watched events).1, verdict plain,
      (Observer.each Observer.finish observers watched events).2⟩

theorem endsAlike_of_status (hfinish : Discreet P observers Observer.finish) {m watched : Machine}
    {events : Array ε} (h : Trails P m watched events) :
    EndsAlike P observers (.ok m.status m)
      (finishWatch observers watched events fun m => .ok m.status) := by
  refine ⟨watched, events, h, ?_⟩
  obtain ⟨taken, hm, _⟩ := hfinish m watched events h
  have hstatus : (Observer.each Observer.finish observers watched events).1.status = m.status := by
    rw [hm, status_withEarlier]
  simp only [finishWatch, hstatus]
  rfl

/-- A watched run ends as the plain one does, whatever the observers take on the way. -/
theorem endsAlike_watchFrom (hfinish : Discreet P observers Observer.finish)
    (hexecuted : ∀ e, Discreet P observers fun o => o.executed e) (t : Nat) :
    ∀ {time : Nat} {m watched : Machine} {events : Array ε}, Trails P m watched events →
      EndsAlike P observers (run t m) (watchFrom observers t time watched events) := by
  induction t with
  | zero =>
    intro time m watched events h
    exact endsAlike_of_status hfinish h
  | succ t ih =>
    intro time m watched events h
    have hended : watched.isTerminated = m.isTerminated := by
      obtain ⟨taken, rfl, _⟩ := h
      rfl
    cases hend : m.isTerminated with
    | true =>
      simp only [run, watchFrom, hended, hend, if_true]
      exact endsAlike_of_status hfinish h
    | false =>
      rcases trails_step h with ⟨e, m', watched', hstep, hstep', h'⟩ |
        ⟨executed, m', watched', hstep, hstep', h'⟩
      · simp only [run, watchFrom, hended, hend, hstep, hstep', Bool.false_eq_true, if_false]
        exact ⟨watched', events, h', rfl⟩
      · simp only [run, watchFrom, hended, hend, hstep, hstep', Bool.false_eq_true, if_false]
        exact ih (hexecuted _ m' watched' events h')

theorem endsAlike_watch (hstart : Discreet P observers Observer.start)
    (hexecuted : ∀ e, Discreet P observers fun o => o.executed e)
    (hfinish : Discreet P observers Observer.finish) (hempty : P "" #[]) (t : Nat) (m : Machine) :
    EndsAlike P observers (run t m) (watch observers (some t) m) :=
  endsAlike_watchFrom hfinish hexecuted t
    (hstart m m #[] ⟨"", (withEarlier_empty m).symm, hempty⟩)

end Watched

inductive Accessory where
  | console (highlight : Bool)
  | dump (settings : Dump.Settings)

def Accessory.observer : Accessory → Observer String
  | .console highlight => Console.observer highlight
  | .dump settings => Dump.observer settings

section Accessories

theorem withEarlier_flush (highlight : Bool) (m : Machine) :
    (Console.flush highlight m).1.withEarlier m.output = m := by
  unfold Console.flush
  split
  · next hempty =>
    rw [String.isEmpty_iff.mp hempty]
    exact m.withEarlier_empty
  · exact m.withEarlier_takeOutput

theorem output_flush (highlight : Bool) (m : Machine) :
    (Console.flush highlight m).1.output = "" := by
  unfold Console.flush
  split
  · next hempty => exact String.isEmpty_iff.mp hempty
  · rfl

theorem join_flush (m : Machine) : String.join (Console.flush false m).2 = m.output := by
  unfold Console.flush
  split
  · next hempty => exact (String.isEmpty_iff.mp hempty).symm
  · simp [takeOutput, String.join_cons]

/-- Observers that only take characters are discreet, if nothing has to account for these. -/
theorem discreet_of_takes {ε : Type} {observers : List (Observer ε)}
    {react : Observer ε → Machine → Machine × List ε}
    (h : ∀ o ∈ observers, ∀ m, ∃ taken, (react o m).1.withEarlier taken = m) :
    Discreet (fun _ _ => True) observers react := by
  induction observers with
  | nil => exact fun m watched events htrail => htrail
  | cons o os ih =>
    rintro m watched events ⟨taken, rfl, _⟩
    obtain ⟨more, hmore⟩ := h o (by simp) watched
    refine ih (fun o' ho' => h o' (by simp [ho'])) _ _ _ ⟨taken ++ more, ?_, trivial⟩
    rw [← withEarlier_withEarlier, hmore]

theorem Accessory.start_takes (a : Accessory) (m : Machine) :
    ∃ taken, (a.observer.start m).1.withEarlier taken = m := by
  refine ⟨"", ?_⟩
  cases a <;> exact m.withEarlier_empty

theorem Accessory.executed_takes (a : Accessory) (e : Executed) (m : Machine) :
    ∃ taken, (a.observer.executed e m).1.withEarlier taken = m := by
  cases a with
  | console highlight => exact ⟨m.output, withEarlier_flush highlight m⟩
  | dump settings => exact ⟨"", m.withEarlier_empty⟩

theorem Accessory.finish_takes (a : Accessory) (m : Machine) :
    ∃ taken, (a.observer.finish m).1.withEarlier taken = m := by
  cases a with
  | console highlight => exact ⟨m.output, withEarlier_flush highlight m⟩
  | dump settings => exact ⟨"", m.withEarlier_empty⟩

def Shown (taken : String) (events : Array String) : Prop := String.join events.toList = taken

theorem trails_flush {m watched : Machine} {events : Array String}
    (h : Trails Shown m watched events) :
    Trails Shown m (Console.flush false watched).1 (events ++ (Console.flush false watched).2) := by
  obtain ⟨taken, rfl, hshown⟩ := h
  refine ⟨taken ++ watched.output, ?_, ?_⟩
  · rw [← withEarlier_withEarlier, withEarlier_flush]
  · rw [Shown, Array.toList_appendList, String.join_append, join_flush, hshown]

theorem discreet_accessories (accessories : List Accessory) {react}
    (h : ∀ (a : Accessory) m, ∃ taken, (react a.observer m).1.withEarlier taken = m) :
    Discreet (fun _ _ => True) (accessories.map Accessory.observer) react := by
  refine discreet_of_takes fun o ho m => ?_
  obtain ⟨a, -, rfl⟩ := List.mem_map.mp ho
  exact h a m

theorem discreet_finish (accessories : List Accessory) :
    Discreet (fun _ _ => True) (accessories.map Accessory.observer) Observer.finish :=
  discreet_accessories accessories Accessory.finish_takes

theorem endsAlike_accessories (accessories : List Accessory) (t : Nat) (m : Machine) :
    EndsAlike (fun _ _ => True) (accessories.map Accessory.observer) (run t m)
      (watch (accessories.map Accessory.observer) (some t) m) :=
  endsAlike_watch (discreet_accessories accessories Accessory.start_takes)
    (fun e => discreet_accessories accessories fun a => a.executed_takes e)
    (discreet_finish accessories) trivial t m

theorem endsAlike_console (t : Nat) (m : Machine) :
    EndsAlike Shown [Console.observer false] (run t m)
      (watch [Console.observer false] (some t) m) := by
  refine endsAlike_watch ?_ (fun e => ?_) ?_ rfl t m
  · intro m watched events h
    simpa [Observer.each, Console.observer] using h
  · exact fun m watched events h => trails_flush h
  · exact fun m watched events h => trails_flush h

end Accessories

/-- What a machine does does not depend on how it is driven. A budget may be split in two. Consoles
and dumps change neither the result nor the machine that is left, except for the output that
consoles take. A console alone shows the output that the plain run leaves, also if it fails, and
leaves none. -/
theorem run_driven (m : Machine) :
    (∀ a b, run (a + b) m = (do let _ ← run a; run b : Exec Status) m) ∧
    (∀ t (accessories : List Accessory),
      (m.watch (accessories.map Accessory.observer) (some t)).result = verdict (run t m) ∧
      ∃ output, (m.watch (accessories.map Accessory.observer) (some t)).machine =
        { reached (run t m) with output }) ∧
    ∀ t, String.join (m.watch [Console.observer false] (some t)).events.toList =
        (reached (run t m)).output ∧
      (m.watch [Console.observer false] (some t)).machine.output = "" := by
  refine ⟨fun a b => ?_, fun t accessories => ?_, fun t => ?_⟩
  · rw [run_add]
    cases h : run a m with
    | ok s m' => rw [bind_ok h]
    | error e m' => rw [bind_error h]
  · obtain ⟨watched, events, htrail, hwatch⟩ := endsAlike_accessories accessories t m
    rw [hwatch]
    obtain ⟨taken, hreached, -⟩ := discreet_finish accessories _ watched events htrail
    exact ⟨rfl, _, by rw [hreached]; rfl⟩
  · obtain ⟨watched, events, htrail, hwatch⟩ := endsAlike_console t m
    rw [hwatch]
    have houtput := output_flush false watched
    obtain ⟨taken, hreached, hshown⟩ := trails_flush htrail
    refine ⟨?_, houtput⟩
    rw [hreached, withEarlier, houtput, String.append_empty]
    exact hshown

end Machine
end EdeLang
