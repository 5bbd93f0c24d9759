import Lox.Proofs.Grammar.Recognition
import Lox.Proofs.Machine.Frames
import Lox.Proofs.Tree.Proper
import Lox.Session

/-!
The names that a parsed program adds to the global frame are those that its own statements
declare. A branch or the body of a loop in such a program declares nothing, a block and a call
declare in frames of their own, and a statement that fails with an error of the program has
declared nothing either.
-/
namespace Lox

def Node.declared? : Node → Option Name
  | .var target _ | .function target _ _ => Name.ofDatum? target.lexeme
  | _ => none

/-- The names that the current frame gets are the declared ones. -/
def State.Adds (s : State) (declared : Name → Prop) (t : State) : Prop :=
  ∀ name, t.store.Binds s.frame name ↔ s.store.Binds s.frame name ∨ declared name

theorem Kept.addsNothing {s t : State} (h : Kept false s t) (hs : s.Live) :
    s.Adds (fun _ => False) t := by
  intro name
  rw [or_false]
  exact h.binds_iff hs name

theorem State.Adds.trans {s t u : State} {first second : Name → Prop} (h : s.Adds first t)
    (h' : t.Adds second u) (hframe : t.frame = s.frame) :
    s.Adds (fun name => first name ∨ second name) u := by
  intro name
  have h₁ := h name
  have h₂ := h' name
  rw [hframe] at h₂
  rw [h₂, h₁, or_assoc]

namespace Exec

variable {settings : Settings}

theorem define_adds {s : State} (hs : s.Live) (t : Token) (v : Value) :
    (define t v s).Meets
      (fun _ u => u.frame = s.frame ∧ s.Adds (fun name => Name.ofDatum? t.lexeme = some name) u)
      (fun f _ => ∃ d, f = .defect d) := by
  rw [define_eq]
  split
  · rename_i name hname
    refine ⟨rfl, fun n => ?_⟩
    simp only [Store.binds_define, hname, Option.some.injEq]
    have hlt : s.frame < s.store.frames.size := hs
    simp [hlt, eq_comm]
  · exact ⟨_, rfl⟩

theorem trace_same (s : State) (entry : Trace) :
    (trace settings entry s).Meets (fun _ t => t.store = s.store) (fun f _ => ∃ d, f = .defect d) := by
  unfold trace
  split
  · split
    · exact ⟨_, rfl⟩
    · rfl
  · rfl

theorem declare_adds {s : State} (hs : s.Live) (t : Token) (v : Value) (entry : Trace) :
    ((do define t v; trace settings entry; return .nil : Exec Value) s).Meets
      (fun _ u => s.Adds (fun name => Name.ofDatum? t.lexeme = some name) u)
      (fun f _ => ∃ d, f = .defect d) := by
  apply Outcome.Meets.bind
  refine (define_adds hs t v).mono (fun _ u h => ?_) (fun _ _ h => h)
  apply Outcome.Meets.bind
  refine (trace_same u entry).mono (fun _ w hw name => ?_) (fun _ _ h => h)
  rw [hw]
  exact h.2 name

/-- A plain statement adds the name that it declares. With an error of the program it adds
none. -/
theorem execute_adds {s : State} (hs : s.Live) (fuel calls : Nat) {n : Node} (hn : n.Plain) :
    (execute settings fuel calls n s).Meets
      (fun _ t => s.Adds (fun name => n.declared? = some name) t)
      (fun f t => ∀ e, f = .error e → s.Adds (fun _ => False) t) := by
  have hquiet (h : n.Quiet) (hnone : n.declared? = none) :
      (execute settings fuel calls n s).Meets
        (fun _ t => s.Adds (fun name => n.declared? = some name) t)
        (fun f t => ∀ e, f = .error e → s.Adds (fun _ => False) t) := by
    have hkept := (Query.execute n).keeps false settings fuel calls (fun _ => h) s hs
    refine hkept.mono (fun _ t ht => ?_) (fun _ t ht _ _ => ?_)
    · simpa [hnone] using ht.addsNothing hs
    · exact ht.addsNothing hs
  have hdefect {f : Fault} {t : State} (h : ∃ d, f = .defect d) :
      ∀ e, f = .error e → s.Adds (fun _ => False) t := by
    obtain ⟨d, rfl⟩ := h
    intro e he
    cases he
  cases fuel with
  | zero =>
    simp only [execute]
    trivial
  | succ fuel =>
    cases n with
    | var target initial =>
      unfold execute
      apply Outcome.Meets.bind
      have hkept :=
        (Query.evaluate initial).keeps false settings fuel calls (fun _ => trivial) s hs
      refine hkept.mono (fun v t ht => ?_) (fun _ t ht _ _ => ht.addsNothing hs)
      refine (declare_adds (ht.live hs) target v _).mono (fun _ u hu name => ?_)
        (fun _ _ h => hdefect h)
      simpa [Node.declared?] using (ht.addsNothing hs).trans hu ht.frame name
    | function target params body =>
      unfold execute
      exact (declare_adds (s := { s with nextId := s.nextId + 1 }) hs target _ _).mono
        (fun _ _ hu => hu) (fun _ _ h => hdefect h)
    | _ => exact hquiet hn rfl

end Exec

/-- The name is declared by one of the statements themselves. -/
def Node.Declared (statements : List Node) (name : Name) : Prop :=
  ∃ n ∈ statements, n.declared? = some name

theorem executeAll_nil (settings : Settings) (fuel calls : Nat) (last : Value) :
    executeAll settings (fuel + 1) calls last [] = pure last := by
  rw [executeAll]

theorem executeAll_cons (settings : Settings) (fuel calls : Nat) (last : Value) (first : Node)
    (rest : List Node) :
    executeAll settings (fuel + 1) calls last (first :: rest) = (do
      let v ← execute settings fuel calls first
      executeAll settings fuel calls v rest) := by
  rw [executeAll]

theorem executeAll_adds {settings : Settings} {statements : List Node} (fuel calls : Nat)
    (last : Value) {s : State} (hs : s.Live) (h : ∀ n ∈ statements, n.Plain) :
    (executeAll settings fuel calls last statements s).Meets
      (fun _ t => s.Adds (Node.Declared statements) t)
      (fun f t => ∀ e, f = .error e → ∃ ran failing rest, statements = ran ++ failing :: rest ∧
        (∃ v m, executeAll settings fuel calls last ran s = .done v m ∧
          ∃ fuel, execute settings fuel calls failing m = .failed f t) ∧
        s.Adds (Node.Declared ran) t) := by
  induction statements generalizing fuel last s with
  | nil =>
    cases fuel with
    | zero =>
      simp only [executeAll]
      trivial
    | succ fuel =>
      rw [executeAll_nil]
      intro name
      simp [Node.Declared]
  | cons first rest ih =>
    cases fuel with
    | zero =>
      simp only [executeAll]
      trivial
    | succ fuel =>
      have hfirst := @Exec.execute_adds settings s hs fuel calls first (h first (by simp))
      have hkept := (Query.execute first).keeps true settings fuel calls (by simp) s hs
      rw [Query.run] at hkept
      rw [executeAll_cons]
      cases hrun : execute settings fuel calls first s with
      | outOfFuel =>
        rw [Exec.bind_of_outOfFuel hrun]
        trivial
      | failed f t =>
        rw [hrun] at hfirst
        rw [Exec.bind_of_failed hrun]
        intro e he
        have hnone : executeAll settings (fuel + 1) calls last [] s = .done last s := by
          rw [executeAll_nil]
          rfl
        refine ⟨[], first, rest, rfl, ⟨last, s, hnone, fuel, hrun⟩, fun name => ?_⟩
        simpa [Node.Declared] using hfirst e he name
      | done v t =>
        rw [hrun] at hfirst hkept
        rw [Exec.bind_of_done hrun]
        refine (ih fuel v (hkept.live hs) fun n hn => h n (by simp [hn])).mono ?_ ?_
        · intro _ u hu name
          simpa [Node.Declared] using hfirst.trans hu hkept.frame name
        · intro f u hu e he
          obtain ⟨ran, failing, after, rfl, ⟨w, m, hran, hfails⟩, hadds⟩ := hu e he
          refine ⟨first :: ran, failing, after, rfl, ⟨w, m, ?_, hfails⟩, fun name => ?_⟩
          · rw [executeAll_cons, Exec.bind_of_done hrun, hran]
          · simpa [Node.Declared] using hfirst.trans hadds hkept.frame name

/-- The sessions that steps lead to. -/
inductive Session.Reachable : Session → Prop where
  | start (settings : Settings) : Reachable { settings }
  | source {s : Session} (fuel : Nat) (text : List Char) : Reachable s →
      Reachable (s.runSource fuel text).session
  | traced {s : Session} (fuel : Nat) (text : List Char) : Reachable s →
      Reachable (s.runTraced fuel text).session
  | tree {s : Session} (fuel : Nat) (n : Node) : Reachable s →
      Reachable (s.runTree fuel n).session
  | clear {s : Session} : Reachable s → Reachable s.clear
  | close {s : Session} : Reachable s → Reachable s.close

/-- The current frame is the global one. -/
def State.Grounded (s : State) : Prop := s.frame = 0 ∧ 0 < s.store.frames.size

theorem State.grounded_initial : State.initial.Grounded := ⟨rfl, by decide⟩

theorem State.Grounded.live {s : State} (h : s.Grounded) : s.Live := by
  unfold Live
  rw [h.1]
  exact h.2

theorem Kept.grounded {declares : Bool} {s t : State} (h : Kept declares s t) (hs : s.Grounded) :
    t.Grounded :=
  ⟨h.frame.trans hs.1, Nat.lt_of_lt_of_le hs.2 h.size⟩

theorem Session.grounded_run {s : Session} (hs : s.state.Grounded) (fuel : Nat)
    (before : List Event) (statements : List Node) :
    (s.run fuel before statements).session.state.Grounded := by
  have h := (Query.executeAll .nil statements).keeps true s.settings fuel s.settings.maxCalls nofun
    { s.state with log := [] } hs.live
  rw [Query.run] at h
  have hkept : ∀ t, Kept true { s.state with log := [] } t →
      State.Grounded { t with log := [] } := fun t ht => ht.grounded hs
  unfold run
  dsimp only
  split
  · rename_i hrun
    rw [hrun] at h
    exact hkept _ h
  · rename_i hrun
    rw [hrun] at h
    exact hkept _ h
  · rename_i hrun
    rw [hrun] at h
    exact hkept _ h
  · exact State.grounded_initial

theorem Session.Reachable.grounded {s : Session} (h : s.Reachable) : s.state.Grounded := by
  induction h with
  | start settings => exact State.grounded_initial
  | source fuel text _ ih =>
    unfold runSource
    split
    · exact grounded_run ih ..
    · exact ih
  | traced fuel text _ ih =>
    unfold runTraced
    dsimp only
    split
    · exact grounded_run ih ..
    · exact ih
  | tree fuel n _ ih =>
    unfold runTree
    split
    · exact grounded_run ih ..
    · exact ih
  | clear _ ih => exact ih
  | close _ ih => exact ih

def Session.Global (s : Session) (name : Name) : Prop := s.state.store.Binds 0 name

/-- What a step that ran statements has added to the global frame: with a value, what all of them
declare; with an error of the program, what those before the failing one declare. -/
def Step.AddsDeclared (step : Step) (s : Session) (statements : List Node) : Prop :=
  match step.ending with
  | .value _ => ∀ name, step.session.Global name ↔ s.Global name ∨ Node.Declared statements name
  | .fault (.error e) =>
    ∃ ran failing rest, statements = ran ++ failing :: rest ∧
      (∃ fuel v m, executeAll s.settings fuel s.settings.maxCalls .nil ran
          { s.state with log := [] } = .done v m ∧
        ∃ fuel t, execute s.settings fuel s.settings.maxCalls failing m = .failed (.error e) t) ∧
      ∀ name, step.session.Global name ↔ s.Global name ∨ Node.Declared ran name
  | _ => True

theorem Session.run_addsDeclared {s : Session} (hs : s.state.Grounded) (fuel : Nat)
    (before : List Event) {statements : List Node} (h : ∀ n ∈ statements, n.Plain) :
    (s.run fuel before statements).AddsDeclared s statements := by
  have hadds := @executeAll_adds s.settings statements fuel s.settings.maxCalls .nil
    { s.state with log := [] } hs.live h
  have hglobal {declared : Name → Prop} {t : State}
      (ht : State.Adds { s.state with log := [] } declared t) (name : Name) :
      t.store.Binds 0 name ↔ s.Global name ∨ declared name := by
    have h := ht name
    dsimp only at h
    rwa [hs.1] at h
  unfold run Step.AddsDeclared
  dsimp only
  cases hrun : executeAll s.settings fuel s.settings.maxCalls .nil statements
      { s.state with log := [] } with
  | done v t =>
    rw [hrun] at hadds
    exact hglobal hadds
  | failed f t =>
    rw [hrun] at hadds
    cases f with
    | error e =>
      obtain ⟨ran, failing, rest, hsplit, ⟨v, m, hran, n, hfails⟩, hdeclared⟩ := hadds e rfl
      exact ⟨ran, failing, rest, hsplit, ⟨fuel, v, m, hran, n, t, hfails⟩, hglobal hdeclared⟩
    | defect d => trivial
  | outOfFuel => trivial

/-- Running code keeps to its frames: from any state whose current frame exists a statement may
declare names in that frame only, and an expression none. So a parsed program adds to the global
frame what its own statements declare. -/
theorem frame_discipline :
    (∀ (settings : Settings) (fuel calls : Nat) (n : Node) (s : State), s.Live →
      (execute settings fuel calls n s).Meets (fun _ t => Kept true s t) (fun _ t => Kept true s t) ∧
      (evaluate settings fuel calls n s).Meets (fun _ t => Kept false s t)
        (fun _ t => Kept false s t)) ∧
    ∀ (s : Session) (depth : Nat) (tokens : List Token) (last : Token), s.Reachable →
      last.kind = .eof → (Grammar.parse depth tokens last).errors = [] →
      ∀ (fuel : Nat) (before : List Event),
        (s.run fuel before (Grammar.parse depth tokens last).statements).AddsDeclared s
          (Grammar.parse depth tokens last).statements := by
  constructor
  · intro settings fuel calls n s hs
    exact ⟨(Query.execute n).keeps true settings fuel calls nofun s hs,
      (Query.evaluate n).keeps false settings fuel calls (fun _ => trivial) s hs⟩
  · intro s depth tokens last hs hlast herrors fuel before
    exact Session.run_addsDeclared hs.grounded fuel before
      (Grammar.parse_recognizes hlast herrors).isPlain

/-- The name in the block is gone when the last statement asks for it, and `a` stays. -/
theorem frame_discipline_block :
    let scanned := scan "var a = 1; \x7b var b = a; \x7d b;".toList
    let parsed := Grammar.parse 100 scanned.tokens scanned.endToken
    let s : Session := { settings := ⟨0, .zero, 10, false⟩ }
    (State.initial.Live ∧
      (evaluate ⟨0, .zero, 10, false⟩ 3 3 (.name scanned.endToken) State.initial).Meets
        (fun _ t => Kept false State.initial t) (fun _ t => Kept false State.initial t)) ∧
    parsed.errors = [] ∧ (s.run 50 [] parsed.statements).AddsDeclared s parsed.statements := by
  intro scanned parsed s
  have hlive : State.initial.Live := by
    unfold State.Live
    decide
  have herrors : parsed.errors = [] := by decide +kernel
  refine ⟨⟨hlive, (frame_discipline.1 _ 3 3 _ _ hlive).2⟩, herrors, ?_⟩
  exact frame_discipline.2 s 100 scanned.tokens scanned.endToken (.start _) rfl herrors 50 []

end Lox
