import Lox.Proofs.Machine.Reports
import Lox.Proofs.Machine.Watch

/-!
More room for calls only lets a run go on. Of two watched runs that may have different numbers of
active calls, or different fuel, the one with less does what the other one does up to where it runs
short; and all that it has noted until then the other one notes, too.
-/
namespace Lox

def Settings.allowing (settings : Settings) (calls : Nat) : Settings :=
  { settings with maxCalls := calls }

theorem State.Noted.suffix {s t : State} (h : s.Noted t) : s.log <:+ t.log := by
  obtain ⟨new, hlog, -⟩ := h
  exact ⟨new, hlog.symm⟩

theorem Watched.log_restore {α : Type} (w : Watched α) (frame : Nat) :
    (w.restore frame).state.log = w.state.log := by
  cases w <;> rfl

namespace Watch

variable {α β : Type} {short : Stop → Prop}

def Grows (w : Watch α) : Prop := ∀ s, s.log <:+ (w s).state.log

theorem log_bind {w : Watch α} {f : α → Watch β} (hf : ∀ a, Grows (f a)) (s : State) :
    (w s).state.log <:+ ((w >>= f) s).state.log := by
  cases hrun : w s with
  | done a t =>
    rw [bind_of_done hrun]
    exact hf a t
  | stopped why t =>
    rw [bind_of_stopped hrun]
    exact List.suffix_refl _

/-- The second run does what the first one does, unless that runs short; then the second one has
noted at least as much. -/
structure Extends (short : Stop → Prop) (w w' : Watch α) : Prop where
  grows : Grows w'
  same : ∀ s, w' s = w s ∨
    ∃ why t, w s = .stopped why t ∧ short why ∧ t.log <:+ (w' s).state.log

theorem extends_self {w : Watch α} (h : Grows w) : Extends short w w := ⟨h, fun _ => .inl rfl⟩

theorem extends_pure (a : α) : Extends short (pure a) (pure a) :=
  extends_self fun _ => List.suffix_refl _

theorem extends_stop (why : Stop) : Extends short (stop why : Watch α) (stop why) :=
  extends_self fun _ => List.suffix_refl _

theorem extends_of {x : Exec α} (h : x.Notes) : Extends short (of x) (of x) := by
  refine extends_self fun s => ?_
  have hs := h s
  unfold of
  cases hrun : x s with
  | done a t =>
    rw [hrun] at hs
    exact hs.suffix
  | failed fault t =>
    rw [hrun] at hs
    exact hs.suffix
  | outOfFuel => exact List.suffix_refl _

theorem Extends.of_short {w w' : Watch α} {why : Stop} (h : Extends short w w')
    (hshort : short why) : Extends short (stop why) w' :=
  ⟨h.grows, fun s => .inr ⟨why, s, rfl, hshort, h.grows s⟩⟩

theorem Extends.bind {w w' : Watch α} {f f' : α → Watch β} (h : Extends short w w')
    (hf : ∀ a, Extends short (f a) (f' a)) : Extends short (w >>= f) (w' >>= f') := by
  have hlog := log_bind (w := w') fun a => (hf a).grows
  refine ⟨fun s => (h.grows s).trans (hlog s), fun s => ?_⟩
  obtain hsame | ⟨why, t, hrun, hshort, hnoted⟩ := h.same s
  · cases hrun : w s with
    | done a t =>
      rw [bind_of_done hrun, bind_of_done (hsame.trans hrun)]
      exact (hf a).same t
    | stopped why t =>
      rw [bind_of_stopped hrun, bind_of_stopped (hsame.trans hrun)]
      exact .inl rfl
  · exact .inr ⟨why, t, bind_of_stopped hrun, hshort, hnoted.trans (hlog s)⟩

theorem Extends.inNewFrame {w w' : Watch α} (h : Extends short w w') :
    Extends short (inNewFrame w) (inNewFrame w') := by
  refine ⟨fun s => ?_, fun s => ?_⟩
  · rw [Watch.inNewFrame, Watched.log_restore]
    exact h.grows s.entered
  · rw [Watch.inNewFrame, Watch.inNewFrame, Watched.log_restore]
    obtain hsame | ⟨why, t, hrun, hshort, hnoted⟩ := h.same s.entered
    · exact .inl (congrArg (Watched.restore s.frame) hsame)
    · rw [hrun]
      exact .inr ⟨why, _, rfl, hshort, hnoted⟩

end Watch

namespace Watch

variable {settings : Settings} {few many : Nat}

theorem extends_op {α : Type} (op : Op α) :
    Extends short (of (op.run (settings.allowing few))) (of (op.run (settings.allowing many))) := by
  cases op <;> exact extends_of (Op.notes _)

theorem extends_plan (hle : few ≤ many) (hshort : ∀ paren active, short (.overflow paren active))
    {answer answer' : {β : Type} → (active : List Token) → Query β → Watch β}
    (hanswer : ∀ {β : Type} (active : List Token) (query : Query β),
      Extends short (answer active query) (answer' active query))
    {α : Type} (p : Plan α) (active : List Token) :
    Extends short (p.watch (settings.allowing few) answer active)
      (p.watch (settings.allowing many) answer' active) := by
  induction p generalizing active with
  | done a => exact extends_pure a
  | step op next ih => exact (extends_op op).bind fun b => ih b active
  | ask query next ih => exact (hanswer active query).bind fun b => ih b active
  | scope body next ihbody ih => exact (ihbody active).inNewFrame.bind fun _ => ih active
  | call paren body next ihbody ih =>
    have hcall := (ihbody (paren :: active)).inNewFrame.bind fun _ => ih active
    unfold Plan.watch
    change Extends short (if active.length < few then _ else _)
      (if active.length < many then _ else _)
    by_cases hroom : active.length < few
    · rw [if_pos hroom, if_pos (Nat.lt_of_lt_of_le hroom hle)]
      exact hcall
    · -- without room the smaller run is short, whether or not the larger one goes on
      rw [if_neg hroom]
      split
      · exact hcall.of_short (hshort paren active)
      · exact extends_stop _

end Watch

variable {settings : Settings} {few many fuel more : Nat} {short : Stop → Prop}

theorem Query.extends_same (hle : few ≤ many)
    (hshort : ∀ paren active, short (.overflow paren active)) (fuel : Nat) (active : List Token)
    {α : Type} (query : Query α) :
    Watch.Extends short (query.watch (settings.allowing few) fuel active)
      (query.watch (settings.allowing many) fuel active) := by
  induction fuel generalizing active α with
  | zero => exact Watch.extends_stop _
  | succ fuel ih =>
    exact Watch.extends_plan hle hshort (fun active query => ih active query) query.plan active

theorem Query.extends (hle : few ≤ many)
    (hshort : ∀ paren active, short (.overflow paren active)) (hspent : short .spent)
    (hfuel : fuel ≤ more) (active : List Token) {α : Type} (query : Query α) :
    Watch.Extends short (query.watch (settings.allowing few) fuel active)
      (query.watch (settings.allowing many) more active) := by
  induction fuel generalizing more active α with
  | zero => exact (query.extends_same (Nat.le_refl many) hshort more active).of_short hspent
  | succ fuel ih =>
    obtain ⟨more, rfl⟩ := Nat.exists_eq_add_one.2 (Nat.lt_of_lt_of_le fuel.succ_pos hfuel)
    exact Watch.extends_plan hle hshort
      (fun active query => ih (Nat.le_of_succ_le_succ hfuel) active query) query.plan active

theorem Query.watch_same (hle : few ≤ many) (fuel : Nat) (active : List Token) {α : Type}
    (query : Query α) (s : State) :
    query.watch (settings.allowing many) fuel active s =
        query.watch (settings.allowing few) fuel active s ∨
      ∃ paren outer t,
        query.watch (settings.allowing few) fuel active s = .stopped (.overflow paren outer) t := by
  let short (why : Stop) : Prop := ∃ paren outer, why = .overflow paren outer
  have hextends : Watch.Extends short (query.watch (settings.allowing few) fuel active)
      (query.watch (settings.allowing many) fuel active) :=
    query.extends_same hle (fun paren outer => ⟨paren, outer, rfl⟩) fuel active
  obtain hsame | ⟨_, t, hrun, ⟨paren, outer, rfl⟩, -⟩ := hextends.same s
  · exact .inl hsame
  · exact .inr ⟨paren, outer, t, hrun⟩

theorem Query.watch_log (hle : few ≤ many) (hfuel : fuel ≤ more) (active : List Token) {α : Type}
    (query : Query α) (s : State) :
    (query.watch (settings.allowing few) fuel active s).state.log <:+
      (query.watch (settings.allowing many) more active s).state.log := by
  have hextends : Watch.Extends (fun _ => True) (query.watch (settings.allowing few) fuel active)
      (query.watch (settings.allowing many) more active) :=
    query.extends hle (fun _ _ => trivial) trivial hfuel active
  obtain hsame | ⟨why, t, hrun, -, hlog⟩ := hextends.same s
  · exact hsame.symm ▸ List.suffix_refl _
  · rw [hrun]
    exact hlog

end Lox
