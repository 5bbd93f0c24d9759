import Lox.Proofs.Machine.Frames
import Lox.Proofs.Store.Tiers
import Lox.Proofs.Tree.Proper

/-!
Only what can be seen matters. From two states whose current frames show the same, running code
does the same, though the frames behind may be others: what it puts on top it puts on both, and
what it changes further out it changes at the same height. A call runs on top of its caller and
so sees the same in both, too. Without a trace nothing tells how many frames there are.
-/
namespace Lox

variable {α β : Type}

inductive Outcome.Alike (rel : State → State → Prop) : Outcome α → Outcome α → Prop where
  | done {a : α} {s t : State} : rel s t → Alike rel (.done a s) (.done a t)
  | failed {fault : Fault} {s t : State} : rel s t → Alike rel (.failed fault s) (.failed fault t)
  | outOfFuel : Alike rel .outOfFuel .outOfFuel

namespace Outcome.Alike

variable {rel rel' : State → State → Prop} {o p : Outcome α} {frame : Nat}

theorem mono (h : o.Alike rel p) (hrel : ∀ s t, rel s t → rel' s t) : o.Alike rel' p := by
  cases h with
  | done h => exact .done (hrel _ _ h)
  | failed h => exact .failed (hrel _ _ h)
  | outOfFuel => exact .outOfFuel

theorem ne_outOfFuel_iff (h : o.Alike rel p) : o ≠ .outOfFuel ↔ p ≠ .outOfFuel := by
  cases h with
  | done | failed => exact ⟨nofun, nofun⟩
  | outOfFuel => exact Iff.rfl

theorem with_meets {left right : State → Prop} (h : o.Alike rel p)
    (ho : o.Meets (fun _ => left) (fun _ => left)) (hp : p.Meets (fun _ => right) (fun _ => right)) :
    o.Alike (fun s t => rel s t ∧ left s ∧ right t) p := by
  cases h with
  | done h => exact .done ⟨h, ho, hp⟩
  | failed h => exact .failed ⟨h, ho, hp⟩
  | outOfFuel => exact .outOfFuel

theorem restoreLeft (h : o.Alike (fun s t => rel { s with frame := frame } t) p) :
    (Exec.restore frame o).Alike rel p := by
  cases h with
  | done h => exact .done h
  | failed h => exact .failed h
  | outOfFuel => exact .outOfFuel

theorem restoreRight (h : o.Alike (fun s t => rel s { t with frame := frame }) p) :
    o.Alike rel (Exec.restore frame p) := by
  cases h with
  | done h => exact .done h
  | failed h => exact .failed h
  | outOfFuel => exact .outOfFuel

end Outcome.Alike

/-- Two states on top of two stacks of frames, with the same events since some earlier point. -/
structure State.Mirrored (earlier earlier' : List Event) (top : Tier) (rest : List Tier)
    (s t : State) : Prop where
  left : s.frame = top.left
  right : t.frame = top.right
  nextId : s.nextId = t.nextId
  log : ∃ new, s.log = new ++ earlier ∧ t.log = new ++ earlier'
  stacked : Stacked s.store t.store top rest

/-- On top of two stacks the two steps do the same and come back to the tops. -/
def Exec.Mirrors (top : Tier) (rest : List Tier) (x y : Exec α) : Prop :=
  ∀ earlier earlier' s t, State.Mirrored earlier earlier' top rest s t →
    (x s).Alike (State.Mirrored earlier earlier' top rest) (y t)

namespace Exec

variable {top : Tier} {rest : List Tier} {settings : Settings}

theorem mirrors_pure (a : α) : Mirrors top rest (pure a) (pure a) := fun _ _ _ _ h => .done h

theorem mirrors_outOfFuel : Mirrors top rest (outOfFuel : Exec α) outOfFuel :=
  fun _ _ _ _ _ => .outOfFuel

theorem mirrors_fail (fault : Fault) : Mirrors top rest (fail fault : Exec α) (fail fault) :=
  fun _ _ _ _ h => .failed h

theorem mirrors_ofExcept (r : Except Fault α) : Mirrors top rest (ofExcept r) (ofExcept r) := by
  cases r with
  | ok a => exact fun _ _ _ _ h => .done h
  | error fault => exact mirrors_fail fault

theorem mirrors_print (line : Text) : Mirrors top rest (print line) (print line) := by
  intro earlier earlier' s t h
  obtain ⟨new, hs, ht⟩ := h.log
  refine .done { h with log := ⟨.printed line :: new, ?_, ?_⟩ }
  · rw [hs, List.cons_append]
  · rw [ht, List.cons_append]

theorem mirrors_freshId : Mirrors top rest freshId freshId := by
  intro earlier earlier' s t h
  unfold freshId
  rw [h.nextId]
  exact .done { h with nextId := rfl }

theorem Mirrors.bind {x y : Exec α} {f g : α → Exec β} (hx : Mirrors top rest x y)
    (hf : ∀ a, Mirrors top rest (f a) (g a)) : Mirrors top rest (x >>= f) (y >>= g) := by
  intro earlier earlier' s t h
  have hends := hx earlier earlier' s t h
  generalize hs : x s = o at hends
  generalize ht : y t = p at hends
  cases hends with
  | done h =>
    rw [bind_of_done hs, bind_of_done ht]
    exact hf _ _ _ _ _ h
  | failed h =>
    rw [bind_of_failed hs, bind_of_failed ht]
    exact .failed h
  | outOfFuel =>
    rw [bind_of_outOfFuel hs, bind_of_outOfFuel ht]
    exact .outOfFuel

/-- The stacks may differ in depth, so what follows must not depend on it. -/
theorem mirrors_depth {f g : Nat → Exec β} (h : ∀ d d', Mirrors top rest (f d) (g d')) :
    Mirrors top rest (depth >>= f) (depth >>= g) :=
  fun _ _ s t hst => h _ _ _ _ s t hst

theorem trace_quiet (h : settings.verbosity = 0) (entry : Trace) :
    trace settings entry = pure () := by
  have hlevel : 0 < entry.level := by
    cases entry <;> exact Nat.succ_pos _
  unfold trace
  rw [if_neg (by omega)]

theorem mirrors_trace (h : settings.verbosity = 0) (entry entry' : Trace) :
    Mirrors top rest (trace settings entry) (trace settings entry') := by
  rw [trace_quiet h, trace_quiet h]
  exact mirrors_pure ()

theorem Mirrors.inNewFrame {x y : Exec α} (h : ∀ f g, Mirrors (.both f g) (top :: rest) x y) :
    Mirrors top rest (inNewFrame x) (inNewFrame y) := by
  intro earlier earlier' s t hst
  have hpush := hst.stacked.push
  rw [← hst.left, ← hst.right] at hpush
  have hentered : State.Mirrored earlier earlier'
      (.both s.store.frames.size t.store.frames.size) (top :: rest)
      { s with store := s.store.push (some s.frame), frame := s.store.frames.size }
      { t with store := t.store.push (some t.frame), frame := t.store.frames.size } :=
    ⟨rfl, rfl, hst.nextId, hst.log, hpush⟩
  refine .restoreLeft (.restoreRight ((h _ _ _ _ _ _ hentered).mono fun s' t' h' => ?_))
  exact ⟨hst.left, hst.right, h'.nextId, h'.log, h'.stacked.outer⟩

theorem Mirrors.inNewFrameLeft {x y : Exec α}
    (h : ∀ f, Mirrors (.extra f top.right) (top :: rest) x y) :
    Mirrors top rest (Exec.inNewFrame x) y := by
  intro earlier earlier' s t hst
  have hpush := hst.stacked.pushLeft
  rw [← hst.left] at hpush
  have hentered : State.Mirrored earlier earlier'
      (.extra s.store.frames.size top.right) (top :: rest)
      { s with store := s.store.push (some s.frame), frame := s.store.frames.size } t :=
    ⟨rfl, hst.right, hst.nextId, hst.log, hpush⟩
  refine .restoreLeft ((h _ _ _ _ _ hentered).mono fun s' t' h' => ?_)
  exact ⟨hst.left, h'.right, h'.nextId, h'.log, h'.stacked.outer⟩

theorem mirrors_define {f g : Nat} (t : Token) (v : Value) :
    Mirrors (.both f g) rest (define t v) (define t v) := by
  intro earlier earlier' s u h
  have hs := h.left
  have hu := h.right
  simp only [Tier.left, Tier.right] at hs hu
  rw [define_eq, define_eq, hs, hu]
  cases Name.ofDatum? t.lexeme with
  | none => exact .failed h
  | some name => exact .done ⟨rfl, rfl, h.nextId, h.log, h.stacked.define name v⟩

theorem mirrors_lookup (t : Token) : Mirrors top rest (lookup t) (lookup t) := by
  intro earlier earlier' s u h
  rw [lookup_eq, lookup_eq]
  cases Name.ofDatum? t.lexeme with
  | none => exact .failed h
  | some name =>
    dsimp only
    rw [h.left, h.right, h.stacked.get?_eq]
    cases u.store.get? top.right name with
    | none => exact .failed h
    | some v => exact .done h

theorem mirrors_assign (t : Token) (v : Value) : Mirrors top rest (assign t v) (assign t v) := by
  intro earlier earlier' s u h
  rw [assign_eq, assign_eq]
  cases Name.ofDatum? t.lexeme with
  | none => exact .failed h
  | some name =>
    dsimp only
    rw [h.left, h.right]
    obtain ⟨hs, hu⟩ | ⟨i, j, hs, hu, hdefined⟩ := h.stacked.assign name v
    · rw [hs, hu]
      exact .failed h
    · rw [hs, hu]
      exact .done ⟨rfl, rfl, h.nextId, h.log, hdefined⟩

end Exec

/-- Names are declared on top only where both stacks have a frame. -/
def Tier.isShared : Tier → Bool
  | .both .. => true
  | .extra .. => false

namespace Exec

variable {settings : Settings} {fuel : Nat} {top : Tier} {rest : List Tier}

theorem mirrors_op (hquiet : settings.verbosity = 0) (op : Op α)
    (h : top.isShared = false → op.declares = false) :
    Mirrors top rest (op.run settings) (op.run settings) := by
  cases op with
  | settle r _ => exact mirrors_ofExcept r
  | lookup t => exact mirrors_lookup t
  | assign t v => exact mirrors_assign t v
  | define t v =>
    cases top with
    | both => exact mirrors_define t v
    | extra => cases h rfl
  | freshId => exact mirrors_freshId
  | print v => exact mirrors_print _
  | trace entry => exact mirrors_trace hquiet _ _
  | traceCall name values => exact mirrors_depth fun d d' => mirrors_trace hquiet _ _
  | native name values => exact mirrors_pure _

theorem mirrors_plan (hquiet : settings.verbosity = 0)
    (hquery : ∀ {γ : Type} (calls : Nat) (query : Query γ) (top : Tier) (rest : List Tier),
      (top.isShared = false → query.Quiet) →
        Mirrors top rest (query.run settings fuel calls) (query.run settings fuel calls))
    (p : Plan α) (calls : Nat) (top : Tier) (rest : List Tier)
    (h : top.isShared = false → p.Quiet) :
    Mirrors top rest (p.run settings fuel calls) (p.run settings fuel calls) := by
  induction p generalizing calls top rest with
  | done a => exact mirrors_pure a
  | step op next ih =>
    exact (mirrors_op hquiet op fun hs => (h hs).1).bind fun b =>
      ih b calls top rest fun hs => (h hs).2 b
  | ask query next ih =>
    exact (hquery calls query top rest fun hs => (h hs).1).bind fun b =>
      ih b calls top rest fun hs => (h hs).2 b
  | scope body next ihbody ih =>
    have hbody (f g : Nat) := ihbody calls (.both f g) (top :: rest) nofun
    exact (Mirrors.inNewFrame hbody).bind fun _ => ih calls top rest h
  | call paren body next ihbody ih =>
    cases calls with
    | zero => exact mirrors_fail _
    | succ calls =>
      have hbody (f g : Nat) := ihbody calls (.both f g) (top :: rest) nofun
      exact (Mirrors.inNewFrame hbody).bind fun _ => ih (calls + 1) top rest h

end Exec

/-- On top of two stacks the evaluator does the same, as far as it may declare names there. -/
theorem Query.mirrors {settings : Settings} (hquiet : settings.verbosity = 0) (fuel calls : Nat)
    (query : Query α) (top : Tier) (rest : List Tier) (h : top.isShared = false → query.Quiet) :
    Exec.Mirrors top rest (query.run settings fuel calls) (query.run settings fuel calls) := by
  induction fuel generalizing calls top rest α with
  | zero =>
    rw [run_zero]
    exact Exec.mirrors_outOfFuel
  | succ fuel ih =>
    rw [run_succ]
    exact Exec.mirrors_plan hquiet (fun calls query top rest h => ih calls query top rest h)
      query.plan calls top rest fun hs => (h hs).plan

/-- The current frames exist and bind, by themselves or further out, the same names to the same
values, and the next function gets the same identity. -/
structure State.Equivalent (s t : State) : Prop where
  left : s.Live
  right : t.Live
  nextId : s.nextId = t.nextId
  visible : ∀ name, s.store.get? s.frame name = t.store.get? t.frame name

/-- What follows from two states: the same events and again equivalent states. -/
structure State.Continued (s t s' t' : State) : Prop where
  events : ∃ new, s'.log = new ++ s.log ∧ t'.log = new ++ t.log
  equivalent : s'.Equivalent t'

namespace State

variable {s t s' t' : State}

theorem Equivalent.mirrored (h : s.Equivalent t) :
    Mirrored s.log t.log (.both s.frame t.frame) [] s t where
  left := rfl
  right := rfl
  nextId := h.nextId
  log := ⟨[], rfl, rfl⟩
  stacked := .base h.left h.right h.visible

theorem Mirrored.continued (h : Mirrored s.log t.log (.both s.frame t.frame) [] s' t') :
    s.Continued t s' t' where
  events := h.log
  equivalent := {
    left := by
      unfold Live
      rw [h.left]
      exact h.stacked.left_lt
    right := by
      unfold Live
      rw [h.right]
      exact h.stacked.right_lt
    nextId := h.nextId
    visible := by
      rw [h.left, h.right]
      exact h.stacked.get?_eq }

/-- Chains of frames that come from one another by taking in or out empty frames and hidden
bindings show the same. -/
theorem equivalent_of_reshaped (hs : s.Live) (ht : t.Live) (hnextId : s.nextId = t.nextId)
    (h : Store.Reshaped (s.store.scopes s.frame) (t.store.scopes t.frame)) : s.Equivalent t where
  left := hs
  right := ht
  nextId := hnextId
  visible := by
    intro name
    rw [Store.get?_eq_findSome?, Store.get?_eq_findSome?]
    exact h.findSome? name

end State

/-- With the same fuel every statement and every expression ends alike from both states, or has no
end from either. -/
def State.RunsAlike (settings : Settings) (s t : State) : Prop :=
  ∀ (fuel calls : Nat) (n : Node),
    (execute settings fuel calls n s).Alike (s.Continued t) (execute settings fuel calls n t) ∧
      (evaluate settings fuel calls n s).Alike (s.Continued t) (evaluate settings fuel calls n t)

theorem State.Equivalent.runsAlike {settings : Settings} {s t : State} (h : s.Equivalent t)
    (hquiet : settings.verbosity = 0) : s.RunsAlike settings t := by
  intro fuel calls n
  have hsame {α : Type} (query : Query α) : (query.run settings fuel calls s).Alike
      (s.Continued t) (query.run settings fuel calls t) := by
    have hmirrors := query.mirrors hquiet fuel calls (.both s.frame t.frame) [] nofun
    exact (hmirrors _ _ s t h.mirrored).mono fun _ _ h => h.continued
  exact ⟨hsame (.execute n), hsame (.evaluate n)⟩

/-- Only visible bindings matter: without a trace, code runs alike from any two states whose current
frames show the same. So it does when empty frames, or bindings that frames further in hide, are
added to or taken from the chain at any place. -/
theorem only_visible_matters {settings : Settings} (hquiet : settings.verbosity = 0) :
    (∀ s t : State, s.Equivalent t → s.RunsAlike settings t) ∧
      ∀ s t : State, s.Live → t.Live → s.nextId = t.nextId →
        Store.Reshaped (s.store.scopes s.frame) (t.store.scopes t.frame) →
        s.RunsAlike settings t := by
  constructor
  · exact fun s t h => h.runsAlike hquiet
  · intro s t hs ht hnextId h
    exact (State.equivalent_of_reshaped hs ht hnextId h).runsAlike hquiet

/-- The outer frame binds the clock in one state and nothing in the other, and the inner frame
hides it. -/
theorem only_visible_matters_hidden :
    let settings : Settings := ⟨0, .zero, 10, false⟩
    let s : State := ⟨((Store.empty.push none).push (some 0)).define 1 (.text "clock") .nil, 1, 1, []⟩
    let t : State := ⟨(State.initial.store.push (some 0)).define 1 (.text "clock") .nil, 1, 1, []⟩
    settings.verbosity = 0 ∧ s.Equivalent t ∧ s.Live ∧ t.Live ∧ s.nextId = t.nextId ∧
      Store.Reshaped (s.store.scopes s.frame) (t.store.scopes t.frame) ∧
      s.RunsAlike settings t ∧ t.RunsAlike settings s := by
  intro settings s t
  have hs : s.Live := by
    unfold State.Live
    decide
  have ht : t.Live := by
    unfold State.Live
    decide
  have hleft : s.store.scopes s.frame = [[(.text "clock", .nil)], []] := by
    rw [Store.scopes_of_some (f := ⟨some 0, [(.text "clock", .nil)]⟩) rfl]
    exact congrArg _ (Store.scopes_of_some (f := ⟨none, []⟩) rfl)
  have hright : t.store.scopes t.frame =
      [[(.text "clock", .nil)], [(.text "clock", .native 0 "clock")]] := by
    rw [Store.scopes_of_some (f := ⟨some 0, [(.text "clock", .nil)]⟩) rfl]
    exact congrArg _ (Store.scopes_of_some (f := ⟨none, [(.text "clock", .native 0 "clock")]⟩) rfl)
  have hreshaped : Store.Reshaped (s.store.scopes s.frame) (t.store.scopes t.frame) := by
    rw [hleft, hright]
    exact .hidden [] [] [] (.native 0 "clock") (List.mem_singleton.2 rfl) (by decide)
  have hequivalent := State.equivalent_of_reshaped hs ht rfl hreshaped
  refine ⟨rfl, hequivalent, hs, ht, rfl, hreshaped, ?_, ?_⟩
  · exact (only_visible_matters rfl).1 s t hequivalent
  · exact (only_visible_matters rfl).2 t s ht hs rfl hreshaped.symm

end Lox
