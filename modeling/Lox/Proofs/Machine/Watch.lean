import Lox.Proofs.Machine.Plan

/-!
Watched runs. A run that spends its fuel has no outcome, and one that has too many active calls only
an error at a token. Watched, the first also tells how far it came, and the second which calls were
active. Apart from that the watched evaluator does what the evaluator does.
-/
namespace Lox

def State.entered (s : State) : State :=
  { s with store := s.store.push (some s.frame), frame := s.store.frames.size }

/-- Why a run came to a stop. -/
inductive Stop where
  | fault (fault : Fault)
  /-- No further call could become active. The token of that call, and those of the active calls,
  the innermost first. -/
  | overflow (paren : Token) (active : List Token)
  | spent

/-- The value that a run has or why it stopped, and the state in which it did. -/
inductive Watched (α : Type) where
  | done (value : α) (state : State)
  | stopped (why : Stop) (state : State)

namespace Watched

variable {α : Type}

def state : Watched α → State
  | .done _ s => s
  | .stopped _ s => s

def outcome : Watched α → Outcome α
  | .done a s => .done a s
  | .stopped (.fault fault) s => .failed fault s
  | .stopped (.overflow paren _) s => .failed (.error ⟨paren, .stackOverflow⟩) s
  | .stopped .spent _ => .outOfFuel

def restore (frame : Nat) : Watched α → Watched α
  | .done a s => .done a { s with frame := frame }
  | .stopped why s => .stopped why { s with frame := frame }

end Watched

def Watch (α : Type) : Type := State → Watched α

namespace Watch

variable {α β : Type}

protected def pure (a : α) : Watch α := fun s => .done a s

protected def bind (w : Watch α) (f : α → Watch β) : Watch β := fun s =>
  match w s with
  | .done a s => f a s
  | .stopped why s => .stopped why s

instance : Monad Watch where
  pure := Watch.pure
  bind := Watch.bind

theorem bind_of_done {w : Watch α} {f : α → Watch β} {s t : State} {a : α} (h : w s = .done a t) :
    (w >>= f) s = f a t := by
  simp only [Bind.bind, Watch.bind, h]

theorem bind_of_stopped {w : Watch α} {f : α → Watch β} {s t : State} {why : Stop}
    (h : w s = .stopped why t) : (w >>= f) s = .stopped why t := by
  simp only [Bind.bind, Watch.bind, h]

def stop (why : Stop) : Watch α := fun s => .stopped why s

def of (x : Exec α) : Watch α := fun s =>
  match x s with
  | .done a t => .done a t
  | .failed fault t => .stopped (.fault fault) t
  | .outOfFuel => .stopped .spent s

def inNewFrame (body : Watch α) : Watch α := fun s => (body s.entered).restore s.frame

end Watch

open Watch in
/-- Carries a plan out within active calls. A call that finds room is active while its body runs. -/
def Plan.watch (settings : Settings)
    (answer : {β : Type} → (active : List Token) → Query β → Watch β) :
    {α : Type} → (active : List Token) → Plan α → Watch α
  | _, _, .done a => pure a
  | _, active, .step op next => do
    let b ← of (op.run settings)
    watch settings answer active (next b)
  | _, active, .ask query next => do
    let b ← answer active query
    watch settings answer active (next b)
  | _, active, .scope body next => do
    let _ ← inNewFrame (watch settings answer active body)
    watch settings answer active next
  | _, active, .call paren body next =>
    if active.length < settings.maxCalls then do
      let _ ← inNewFrame (watch settings answer (paren :: active) body)
      watch settings answer active next
    else stop (.overflow paren active)

/-- The answer of the evaluator, watched: it knows the tokens of the active calls. -/
def Query.watch (settings : Settings) :
    {α : Type} → (fuel : Nat) → (active : List Token) → Query α → Watch α
  | _, 0, _, _ => Watch.stop .spent
  | _, fuel + 1, active, query =>
    query.plan.watch settings (fun active query => watch settings fuel active query) active

namespace Exec

variable {α β : Type} {settings : Settings}

def Plain (x : Exec α) : Prop :=
  ∀ s, (x s).Meets (fun _ t => t.frame = s.frame)
    (fun fault t => t.frame = s.frame ∧ ∀ paren, fault ≠ .error ⟨paren, .stackOverflow⟩)

theorem plain_pure (a : α) : Plain (pure a) := fun _ => rfl

theorem plain_fail {fault : Fault} (h : ∀ paren, fault ≠ .error ⟨paren, .stackOverflow⟩) :
    Plain (fail fault : Exec α) := fun _ => ⟨rfl, h⟩

theorem plain_defect (d : Defect) : Plain (fail (.defect d) : Exec α) := plain_fail nofun

theorem plain_error {t : Token} {cause : Cause} (h : cause ≠ .stackOverflow) :
    Plain (error t cause : Exec α) :=
  plain_fail fun _ heq => h (congrArg RuntimeError.cause (Fault.error.inj heq))

theorem plain_emit (e : Event) : Plain (emit e) := fun _ => rfl

theorem plain_freshId : Plain freshId := fun _ => rfl

theorem plain_depth : Plain depth := fun _ => rfl

theorem plain_trace (entry : Trace) : Plain (trace settings entry) := by
  unfold trace
  split
  · split
    · exact plain_defect _
    · exact plain_emit _
  · exact plain_pure ()

theorem plain_define (t : Token) (v : Value) : Plain (define t v) := by
  intro s
  rw [define_eq]
  split
  · exact rfl
  · exact ⟨rfl, nofun⟩

theorem plain_lookup (t : Token) : Plain (lookup t) := by
  intro s
  rw [lookup_eq]
  split
  · split
    · exact rfl
    · exact ⟨rfl, nofun⟩
  · exact ⟨rfl, nofun⟩

theorem plain_assign (t : Token) (v : Value) : Plain (assign t v) := by
  intro s
  rw [assign_eq]
  split
  · split
    · exact rfl
    · exact ⟨rfl, nofun⟩
  · exact ⟨rfl, nofun⟩

theorem Plain.bind {x : Exec α} {f : α → Exec β} (hx : Plain x) (hf : ∀ a, Plain (f a)) :
    Plain (x >>= f) := by
  intro s
  apply Outcome.Meets.bind
  refine (hx s).mono (fun a t ht => ?_) fun _ _ h => h
  exact (hf a t).mono (fun _ _ hu => hu.trans ht) fun _ _ hu => ⟨hu.1.trans ht, hu.2⟩

theorem plain_ordinary {r : Except Fault Value} (h : Ordinary r) : Plain (ofExcept r) := by
  cases h with
  | value _ => exact plain_pure _
  | error hcause => exact plain_error hcause
  | defect _ => exact plain_defect _

end Exec

/-- From a state, a run within active calls is watched as it is: in the end it is back in its frame,
and if it overflows, then within those calls and as many more as may be active at once. -/
inductive Tells (settings : Settings) (active : List Token) (s : State) {α : Type} :
    Watched α → Outcome α → Prop
  | done {a : α} {t : State} : t.frame = s.frame → Tells settings active s (.done a t) (.done a t)
  | fault {fault : Fault} {t : State} : t.frame = s.frame →
      (∀ paren, fault ≠ .error ⟨paren, .stackOverflow⟩) →
      Tells settings active s (.stopped (.fault fault) t) (.failed fault t)
  | overflow {paren : Token} {outer : List Token} {t : State} : t.frame = s.frame →
      active <:+ outer → outer.length = settings.maxCalls →
      Tells settings active s (.stopped (.overflow paren outer) t)
        (.failed (.error ⟨paren, .stackOverflow⟩) t)
  | spent {t : State} : Tells settings active s (.stopped .spent t) .outOfFuel

namespace Tells

variable {α : Type} {settings : Settings} {active : List Token} {s t : State} {w : Watched α}
  {o : Outcome α}

theorem outcome_eq (h : Tells settings active s w o) : w.outcome = o := by
  cases h <;> rfl

theorem weaken {outer : List Token} (h : Tells settings active t w o) (hframe : t.frame = s.frame)
    (houter : outer <:+ active) : Tells settings outer s w o := by
  cases h with
  | done h => exact .done (h.trans hframe)
  | fault h hfault => exact .fault (h.trans hframe) hfault
  | overflow h hsuffix hlength => exact .overflow (h.trans hframe) (houter.trans hsuffix) hlength
  | spent => exact .spent

theorem restore (h : Tells settings active t w o) :
    Tells settings active s (w.restore s.frame) (Exec.restore s.frame o) := by
  cases h with
  | done => exact .done rfl
  | fault _ hfault => exact .fault rfl hfault
  | overflow _ hsuffix hlength => exact .overflow rfl hsuffix hlength
  | spent => exact .spent

end Tells

namespace Watch

variable {α β : Type} {settings : Settings} {active : List Token}

def Watches (settings : Settings) (active : List Token) (w : Watch α) (x : Exec α) : Prop :=
  ∀ s, Tells settings active s (w s) (x s)

theorem watches_pure (a : α) : Watches settings active (pure a) (pure a) := fun _ => .done rfl

theorem watches_spent : Watches settings active (stop .spent) (Exec.outOfFuel : Exec α) :=
  fun _ => .spent

theorem watches_of {x : Exec α} (h : x.Plain) : Watches settings active (of x) x := by
  intro s
  have hs := h s
  unfold of
  cases hrun : x s with
  | done a t =>
    rw [hrun] at hs
    exact .done hs
  | failed fault t =>
    rw [hrun] at hs
    exact .fault hs.1 hs.2
  | outOfFuel => exact .spent

theorem Watches.bind {w : Watch α} {x : Exec α} {f : α → Watch β} {g : α → Exec β}
    (h : Watches settings active w x) (hf : ∀ a, Watches settings active (f a) (g a)) :
    Watches settings active (w >>= f) (x >>= g) := by
  intro s
  have hs := h s
  simp only [Bind.bind, Watch.bind, Exec.bind]
  generalize w s = watched, x s = outcome at hs
  cases hs with
  | done hframe => exact (hf _ _).weaken hframe (List.suffix_refl _)
  | fault hframe hfault => exact .fault hframe hfault
  | overflow hframe hsuffix hlength => exact .overflow hframe hsuffix hlength
  | spent => exact .spent

theorem Watches.inNewFrame {w : Watch α} {x : Exec α} (h : Watches settings active w x) :
    Watches settings active (inNewFrame w) (Exec.inNewFrame x) :=
  fun _ => (h _).restore

theorem Watches.within {paren : Token} {w : Watch α} {x : Exec α}
    (h : Watches settings (paren :: active) w x) : Watches settings active w x :=
  fun s => (h s).weaken rfl (List.suffix_cons ..)

end Watch

/-- The further calls that may become active within active ones. -/
def Settings.room (settings : Settings) (active : List Token) : Nat :=
  settings.maxCalls - active.length

namespace Watch

variable {settings : Settings} {fuel : Nat} {active : List Token}

theorem watches_op {α : Type} (op : Op α) :
    Watches settings active (of (op.run settings)) (op.run settings) := by
  apply watches_of
  cases op with
  | settle r h => exact Exec.plain_ordinary h
  | lookup t => exact Exec.plain_lookup t
  | assign t v => exact Exec.plain_assign t v
  | define t v => exact Exec.plain_define t v
  | freshId => exact Exec.plain_freshId
  | print v => exact Exec.plain_emit _
  | trace entry => exact Exec.plain_trace entry
  | traceCall name values => exact Exec.plain_depth.bind fun d => Exec.plain_trace _
  | native name values => exact Exec.plain_pure _

/-- The call that finds no room is the one whose token the error gets. -/
theorem watches_plan
    {answer : {β : Type} → (active : List Token) → Query β → Watch β}
    (hanswer : ∀ {β : Type} {active : List Token}, active.length ≤ settings.maxCalls →
      ∀ query : Query β, Watches settings active (answer active query)
        (query.run settings fuel (settings.room active)))
    {α : Type} (p : Plan α) (h : active.length ≤ settings.maxCalls) :
    Watches settings active (p.watch settings answer active)
      (p.run settings fuel (settings.room active)) := by
  induction p generalizing active with
  | done a => exact watches_pure a
  | step op next ih => exact (watches_op op).bind fun b => ih b h
  | ask query next ih => exact (hanswer h query).bind fun b => ih b h
  | scope body next ihbody ih => exact (ihbody h).inNewFrame.bind fun _ => ih h
  | call paren body next ihbody ih =>
    unfold Plan.watch
    by_cases hroom : active.length < settings.maxCalls
    · have hcalls : settings.room active = settings.room (paren :: active) + 1 := by
        simp only [Settings.room, List.length_cons]
        omega
      have hnext := ih h
      rw [hcalls] at hnext
      have hactive : (paren :: active).length ≤ settings.maxCalls := hroom
      rw [if_pos hroom, hcalls]
      exact (ihbody hactive).within.inNewFrame.bind fun _ => hnext
    · have hnone : settings.room active = 0 := Nat.sub_eq_zero_of_le (Nat.not_lt.1 hroom)
      have hfull : active.length = settings.maxCalls := Nat.le_antisymm h (Nat.not_lt.1 hroom)
      rw [if_neg hroom, hnone]
      exact fun _ => .overflow rfl (List.suffix_refl _) hfull

end Watch

theorem Query.watches (settings : Settings) (fuel : Nat) {active : List Token}
    (h : active.length ≤ settings.maxCalls) {α : Type} (query : Query α) :
    Watch.Watches settings active (query.watch settings fuel active)
      (query.run settings fuel (settings.room active)) := by
  induction fuel generalizing active α with
  | zero =>
    rw [run_zero]
    exact Watch.watches_spent
  | succ fuel ih =>
    rw [run_succ]
    exact Watch.watches_plan (fun h query => ih h query) query.plan h

end Lox
