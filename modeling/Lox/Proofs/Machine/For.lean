import Lox.Lexeme.Scan
import Lox.Proofs.Grammar.Recognition
import Lox.Proofs.Machine.Loop

/-!
The for statement. It is read as a block with a while loop in it, and each turn of that loop has a
frame of its own, around the body and the increment. Neither declares anything there, so the
statement does what it would do without that frame: run the initializer in a new frame, then
the body and the increment in the same frame for as long as the condition holds there.
-/
namespace Lox

open Exec

/-- The clauses of a for statement, as far as they are there, and its body. -/
structure For where
  initializer : Option Node
  condition : Option Node
  increment : Option Node
  body : Node

namespace For

inductive StartClause : List Token → Option Node → Prop where
  | omitted {semi : Token} : semi.kind = .semicolon → StartClause [semi] none
  | binding {ts : List Token} {n : Node} : Grammar.Phrase true .binding ts n →
      StartClause ts (some n)
  | simple {ts : List Token} {n : Node} : Grammar.Phrase true .simple ts n →
      StartClause ts (some n)

inductive Clause (close : Kind) : List Token → Option Node → Prop where
  | omitted {t : Token} : t.kind = close → Clause close [t] none
  | given {ts : List Token} {t : Token} {n : Node} : Grammar.Phrase true .expression ts n →
      t.kind = close → Clause close (ts ++ [t]) (some n)

inductive Spelled : List Token → For → Prop where
  | mk {kw l : Token} {is cs ns us : List Token} {initializer condition increment : Option Node}
      {body : Node} {o : Bool} : kw.kind = .kwFor → l.kind = .leftParen →
      StartClause is initializer → Clause .semicolon cs condition →
      Clause .rightParen ns increment → Grammar.Phrase true (.statement o) us body →
      Spelled (kw :: l :: (is ++ (cs ++ (ns ++ us)))) ⟨initializer, condition, increment, body⟩

variable (settings : Settings) (f : For) (fuel calls : Nat)

def start : Exec Unit :=
  match f.initializer with
  | some n => (execute settings fuel calls n).void
  | none => return ()

/-- A missing condition always holds. -/
def holds : Exec Bool :=
  match f.condition with
  | some n => test settings fuel calls n
  | none => return true

def advance : Exec Unit :=
  match f.increment with
  | some n => (evaluate settings fuel calls n).void
  | none => return ()

def turn : Exec Unit := do
  (execute settings fuel calls f.body).void
  f.advance settings fuel calls

/-- Runs the statement in one new frame, which is left however the run ends. -/
def run : Exec Value := do
  inNewFrame do
    f.start settings fuel calls
    repeatWhile (f.holds settings · calls) (f.turn settings · calls) fuel
  return .nil

/-- The tree for the statement. What stands in for missing clauses has lines. -/
def tree (line line' : Datum) : Node :=
  Grammar.forBlock (f.initializer.getD (.block [])) (f.condition.getD (Grammar.impliedTrue line))
    (f.increment.getD (Grammar.impliedNil line')) f.body

theorem exists_startClause {is : List Token} {n : Node}
    (h : Grammar.Phrase true .initializer is n) :
    ∃ initializer, StartClause is initializer ∧ n = initializer.getD (.block []) := by
  cases h with
  | noInitializer hs => exact ⟨none, .omitted hs, rfl⟩
  | boundInitializer h => exact ⟨some n, .binding h, rfl⟩
  | simpleInitializer h => exact ⟨some n, .simple h, rfl⟩

theorem exists_condition {cs : List Token} {n : Node} (h : Grammar.Phrase true .condition cs n) :
    ∃ condition line, Clause .semicolon cs condition ∧
      n = condition.getD (Grammar.impliedTrue line) := by
  cases h with
  | noCondition hs => exact ⟨none, _, .omitted hs, rfl⟩
  | someCondition h hs => exact ⟨some n, .null, .given h hs, rfl⟩

theorem exists_increment {ns : List Token} {n : Node} (h : Grammar.Phrase true .increment ns n) :
    ∃ increment line, Clause .rightParen ns increment ∧
      n = increment.getD (Grammar.impliedNil line) := by
  cases h with
  | noIncrement hr => exact ⟨none, _, .omitted hr, rfl⟩
  | someIncrement h hr => exact ⟨some n, .null, .given h hr, rfl⟩

theorem exists_spelled {o : Bool} {t : Token} {ts : List Token} {n : Node}
    (h : Grammar.Phrase true (.statement o) (t :: ts) n) (ht : t.kind = .kwFor) :
    ∃ (f : For) (line line' : Datum), Spelled (t :: ts) f ∧ n = f.tree line line' ∧
      f.body.Quiet := by
  cases h with
  | counted hk hl hi hc hn hb =>
    obtain ⟨initializer, hinitializer, rfl⟩ := exists_startClause hi
    obtain ⟨condition, line, hcondition, rfl⟩ := exists_condition hc
    obtain ⟨increment, line', hincrement, rfl⟩ := exists_increment hn
    exact ⟨_, line, line', .mk hk hl hinitializer hcondition hincrement hb, rfl, hb.isPlain⟩
  | plain h =>
    obtain ⟨u, us, hcons, hstart⟩ := h.startsWith (by decide)
    cases hcons
    rw [ht] at hstart
    exact absurd hstart (by decide)
  | print hk | block hk | loop hk | ifOnly hk | ifElse hk =>
    rw [ht] at hk
    cases hk

/-- An empty block stands in for a missing initializer. -/
def startNested : Exec Unit :=
  match f.initializer with
  | some n => (execute settings fuel calls n).void
  | none => inNewFrame (return ())

/-- Runs the statement with a further frame for each turn. -/
def runNested : Exec Value := do
  inNewFrame do
    f.startNested settings fuel calls
    repeatWhile (f.holds settings · calls) (fun fuel => inNewFrame (f.turn settings fuel calls)) fuel
  return .nil

variable {settings f fuel calls} {more : Nat} {line line' : Datum}

theorem test_holds (h : fuel ≤ more) :
    Improves (test settings fuel calls (f.condition.getD (Grammar.impliedTrue line)))
      (f.holds settings more calls) := by
  unfold holds
  cases f.condition with
  | some n => exact test_improves h calls n
  | none =>
    -- the literal in the tree takes a unit of fuel, where the statement itself takes none
    cases fuel with
    | zero =>
      unfold test evaluate
      exact improves_outOfFuel _
    | succ fuel =>
      unfold test evaluate
      exact improves_refl _

theorem holds_test (h : fuel < more) :
    Improves (f.holds settings fuel calls)
      (test settings more calls (f.condition.getD (Grammar.impliedTrue line))) := by
  unfold holds
  cases f.condition with
  | some n => exact test_improves (Nat.le_of_lt h) calls n
  | none =>
    cases more with
    | zero => exact absurd h (Nat.not_lt_zero _)
    | succ more =>
      unfold test evaluate
      exact improves_refl _

theorem increment_advance (h : fuel ≤ more) :
    Improves (evaluate settings fuel calls (f.increment.getD (Grammar.impliedNil line))).void
      (f.advance settings more calls) := by
  unfold advance
  cases f.increment with
  | some n => exact (evaluate_improves h calls n).void
  | none =>
    cases fuel with
    | zero =>
      unfold evaluate
      exact improves_outOfFuel _
    | succ fuel =>
      unfold evaluate
      exact improves_refl _

theorem advance_increment (h : fuel < more) :
    Improves (f.advance settings fuel calls)
      (evaluate settings more calls (f.increment.getD (Grammar.impliedNil line))).void := by
  unfold advance
  cases f.increment with
  | some n => exact (evaluate_improves (Nat.le_of_lt h) calls n).void
  | none =>
    cases more with
    | zero => exact absurd h (Nat.not_lt_zero _)
    | succ more =>
      unfold evaluate
      exact improves_refl _

theorem inOrder_turn (h : fuel ≤ more) :
    Improves
      (inOrder settings fuel calls
        [f.body, .expression (f.increment.getD (Grammar.impliedNil line))])
      (f.turn settings more calls) := by
  have hstep : Improves
      (execute settings fuel calls (.expression (f.increment.getD (Grammar.impliedNil line)))).void
      (f.advance settings more calls) := by
    cases fuel with
    | zero =>
      unfold execute
      exact improves_outOfFuel _
    | succ fuel =>
      unfold execute
      exact increment_advance (Nat.le_of_succ_le h)
  unfold inOrder inOrder inOrder turn
  rw [bind_pure_unit]
  exact (execute_improves h calls f.body).void.bind fun _ => hstep

theorem turn_inOrder :
    Improves (f.turn settings fuel calls)
      (inOrder settings (fuel + 2) calls
        [f.body, .expression (f.increment.getD (Grammar.impliedNil line))]) := by
  have hstep : Improves (f.advance settings fuel calls)
      (execute settings (fuel + 2) calls
        (.expression (f.increment.getD (Grammar.impliedNil line)))).void := by
    unfold execute
    exact advance_increment (Nat.lt_succ_self fuel)
  unfold inOrder inOrder inOrder turn
  rw [bind_pure_unit]
  exact (execute_improves (Nat.le_add_right fuel 2) calls f.body).void.bind fun _ => hstep

theorem start_nested (h : fuel ≤ more) :
    Improves (execute settings fuel calls (f.initializer.getD (.block []))).void
      (f.startNested settings more calls) := by
  unfold startNested
  cases f.initializer with
  | some n => exact (execute_improves h calls n).void
  | none => exact block_inOrder h calls []

theorem nested_start :
    Improves (f.startNested settings fuel calls)
      (execute settings (fuel + 2) calls (f.initializer.getD (.block []))).void := by
  unfold startNested
  cases f.initializer with
  | some n => exact (execute_improves (Nat.le_add_right fuel 2) calls n).void
  | none => exact inOrder_block fuel calls []

theorem loop_nested (hquiet : settings.verbosity = 0) :
    Improves
      (execute settings fuel calls
        (.loop (f.condition.getD (Grammar.impliedTrue line))
          (.block [f.body, .expression (f.increment.getD (Grammar.impliedNil line'))]))).void
      (repeatWhile (f.holds settings · calls)
        (fun fuel => inNewFrame (f.turn settings fuel calls)) fuel) := by
  cases fuel with
  | zero =>
    unfold execute
    exact improves_outOfFuel _
  | succ fuel =>
    rw [execute_loop_void hquiet]
    refine Improves.repeatWhile (fun k => ?_) (fun k => ?_) fuel
    · exact test_holds (Nat.le_succ k)
    · exact (block_inOrder (Nat.le_refl k) calls _).trans (inOrder_turn (Nat.le_succ k)).inNewFrame

theorem nested_loop (hquiet : settings.verbosity = 0) :
    Improves
      (repeatWhile (f.holds settings · calls)
        (fun fuel => inNewFrame (f.turn settings fuel calls)) fuel)
      (execute settings (fuel + 7) calls
        (.loop (f.condition.getD (Grammar.impliedTrue line))
          (.block [f.body, .expression (f.increment.getD (Grammar.impliedNil line'))]))).void := by
  rw [execute_loop_void hquiet]
  refine Improves.repeatWhile (fun k => ?_) (fun k => ?_) fuel
  · exact holds_test (Nat.lt_add_of_pos_right (by decide))
  · exact turn_inOrder.inNewFrame.trans (inOrder_block (k + 2) calls [_, _])

theorem tree_nested (hquiet : settings.verbosity = 0) (fuel : Nat) :
    Improves (execute settings fuel calls (f.tree line line')) (f.runNested settings fuel calls) := by
  unfold tree Grammar.forBlock runNested
  rw [execute_block_void]
  refine Improves.bind ?_ fun _ => improves_refl _
  refine (block_inOrder (Nat.le_refl fuel) calls _).trans (Improves.inNewFrame ?_)
  unfold inOrder inOrder inOrder
  rw [bind_pure_unit]
  exact (start_nested (Nat.le_refl fuel)).bind fun _ => loop_nested hquiet

theorem nested_tree (hquiet : settings.verbosity = 0) (fuel : Nat) :
    Improves (f.runNested settings fuel calls)
      (execute settings (fuel + 11) calls (f.tree line line')) := by
  -- four units are for the outer block, and seven for the loop in it
  unfold tree Grammar.forBlock runNested
  rw [execute_block_void]
  refine Improves.bind ?_ fun _ => improves_refl _
  refine Improves.trans (Improves.inNewFrame ?_) (inOrder_block (fuel + 7) calls [_, _])
  unfold inOrder inOrder inOrder
  rw [bind_pure_unit]
  refine Improves.bind ?_ fun _ => nested_loop hquiet
  have hle : fuel + 2 ≤ fuel + 7 := by omega
  exact nested_start.trans (execute_improves hle calls _).void

variable {top : Tier} {rest : List Tier}

theorem mirrors_holds (hquiet : settings.verbosity = 0) :
    Mirrors top rest (f.holds settings fuel calls) (f.holds settings fuel calls) := by
  unfold holds
  cases f.condition with
  | some n =>
    exact ((Query.evaluate n).mirrors hquiet fuel calls top rest fun _ => trivial).bind fun _ =>
      mirrors_pure _
  | none => exact mirrors_pure true

theorem mirrors_turn (hquiet : settings.verbosity = 0) (hbody : f.body.Quiet) :
    Mirrors top rest (f.turn settings fuel calls) (f.turn settings fuel calls) := by
  unfold turn advance
  have hexecute := (Query.execute f.body).mirrors hquiet fuel calls top rest fun _ => hbody
  refine hexecute.void.bind fun _ => ?_
  cases f.increment with
  | some n =>
    exact ((Query.evaluate n).mirrors hquiet fuel calls top rest fun _ => trivial).void
  | none => exact mirrors_pure ()

theorem mirrors_start (hquiet : settings.verbosity = 0) {i j : Nat} :
    Mirrors (.both i j) rest (f.startNested settings fuel calls) (f.start settings fuel calls) := by
  unfold startNested start
  cases f.initializer with
  | some n => exact ((Query.execute n).mirrors hquiet fuel calls (.both i j) rest nofun).void
  | none => exact Mirrors.inNewFrameLeft fun _ => mirrors_pure ()

theorem mirrors_nested (hquiet : settings.verbosity = 0) (hbody : f.body.Quiet) :
    Mirrors top rest (f.runNested settings fuel calls) (f.run settings fuel calls) := by
  unfold runNested run
  refine (Mirrors.inNewFrame fun i j => ?_).bind fun _ => mirrors_pure _
  refine (mirrors_start hquiet).bind fun _ => ?_
  exact Mirrors.repeatWhile (fun _ => mirrors_holds hquiet)
    (fun _ => Mirrors.inNewFrameLeft fun _ => mirrors_turn hquiet hbody) fuel

theorem keeps_holds : Keeps true (f.holds settings fuel calls) := by
  unfold holds
  cases f.condition with
  | some n =>
    exact ((Query.evaluate n).keeps true settings fuel calls nofun).bind fun _ => keeps_pure _
  | none => exact keeps_pure true

theorem keeps_turn : Keeps true (f.turn settings fuel calls) := by
  unfold turn advance
  refine ((Query.execute f.body).keeps true settings fuel calls nofun).void.bind fun _ => ?_
  cases f.increment with
  | some n => exact ((Query.evaluate n).keeps true settings fuel calls nofun).void
  | none => exact keeps_pure ()

theorem keeps_loop {first : Exec Unit} {turn : Nat → Exec Unit} (hfirst : Keeps true first)
    (hturn : ∀ fuel, Keeps true (turn fuel)) :
    Keeps false (do
      inNewFrame do
        first
        repeatWhile (f.holds settings · calls) turn fuel
      return Value.nil) := by
  refine (Keeps.inNewFrame ?_).bind fun _ => keeps_pure _
  exact hfirst.bind fun _ => Keeps.repeatWhile (fun _ => keeps_holds) hturn fuel

theorem keeps_run : Keeps false (f.run settings fuel calls) := by
  refine keeps_loop ?_ fun _ => keeps_turn
  unfold start
  cases f.initializer with
  | some n => exact ((Query.execute n).keeps true settings fuel calls nofun).void
  | none => exact keeps_pure ()

theorem keeps_nested : Keeps false (f.runNested settings fuel calls) := by
  refine keeps_loop ?_ fun _ => keeps_turn.inNewFrame.weaken
  unfold startNested
  cases f.initializer with
  | some n => exact ((Query.execute n).keeps true settings fuel calls nofun).void
  | none => exact (keeps_pure ()).inNewFrame.weaken

theorem run_improves (h : fuel ≤ more) :
    Improves (f.run settings fuel calls) (f.run settings more calls) := by
  obtain ⟨k, rfl⟩ := Nat.exists_eq_add_of_le h
  have hstart : Improves (f.start settings fuel calls) (f.start settings (fuel + k) calls) := by
    unfold start
    cases f.initializer with
    | some n => exact (execute_improves (Nat.le_add_right fuel k) calls n).void
    | none => exact improves_refl _
  have hholds (m : Nat) : Improves (f.holds settings m calls) (f.holds settings (m + k) calls) := by
    unfold holds
    cases f.condition with
    | some n => exact test_improves (Nat.le_add_right m k) calls n
    | none => exact improves_refl _
  have hturn (m : Nat) : Improves (f.turn settings m calls) (f.turn settings (m + k) calls) := by
    unfold turn advance
    refine (execute_improves (Nat.le_add_right m k) calls f.body).void.bind fun _ => ?_
    cases f.increment with
    | some n => exact (evaluate_improves (Nat.le_add_right m k) calls n).void
    | none => exact improves_refl _
  unfold run
  refine Improves.bind (Improves.inNewFrame ?_) fun _ => improves_refl _
  exact hstart.bind fun _ => Improves.repeatWhile hholds hturn fuel

end For

/-- Two states after runs from one state: the frames that were there before bind the same in both,
and all else that was seen from outside or will be used is the same, too. -/
structure State.SameAfter (s t u : State) : Prop where
  left : t.frame = s.frame
  right : u.frame = s.frame
  nextId : t.nextId = u.nextId
  log : t.log = u.log
  parents : ∀ i < s.store.frames.size,
    t.store.parent? i = s.store.parent? i ∧ u.store.parent? i = s.store.parent? i
  bindings : ∀ i < s.store.frames.size, ∀ name, t.store.at? i name = u.store.at? i name

theorem State.Mirrored.sameAfter {s t u : State} {rest : List Tier}
    (h : Mirrored s.log s.log (.both s.frame s.frame) rest t u)
    (hchain : ∀ i, s.store.OnChain s.frame i →
      .both i i ∈ Tier.both s.frame s.frame :: rest)
    (ht : Kept false s t) (hu : Kept false s u) : s.SameAfter t u where
  left := ht.frame
  right := hu.frame
  nextId := h.nextId
  log := by
    obtain ⟨new, hleft, hright⟩ := h.log
    rw [hleft, hright]
  parents := fun i hi => ⟨ht.parent i hi, hu.parent i hi⟩
  bindings := by
    intro i hi name
    by_cases hon : s.store.OnChain s.frame i
    · apply Store.at?_eq_of_get?_eq
      · rw [ht.binds_iff hi, hu.binds_iff hi]
      · exact h.stacked.get?_of_mem (hchain i hon) name
    · unfold Store.at?
      rw [ht.apart i hi hon, hu.apart i hi hon]

theorem For.nested_sameAfter {settings : Settings} (hquiet : settings.verbosity = 0) {f : For}
    (hbody : f.body.Quiet) {s : State} (hs : s.Live) (calls fuel : Nat) :
    (f.runNested settings fuel calls s).Alike s.SameAfter (f.run settings fuel calls s) := by
  obtain ⟨rest, hstacked, hchain⟩ := Stacked.exists_self s.store hs
  have hmirrored : State.Mirrored s.log s.log (.both s.frame s.frame) rest s s :=
    ⟨rfl, rfl, rfl, ⟨[], rfl, rfl⟩, hstacked⟩
  have hruns : Mirrors (.both s.frame s.frame) rest (f.runNested settings fuel calls)
      (f.run settings fuel calls) := For.mirrors_nested hquiet hbody
  have hends := hruns _ _ _ _ hmirrored
  refine (hends.with_meets (For.keeps_nested s hs) (For.keeps_run s hs)).mono ?_
  exact fun t u h => h.1.sameAfter hchain h.2.1 h.2.2

/-- What a run that came to an end without a trace printed, the latest line first. -/
def Outcome.output? {α : Type} : Outcome α → Option (List Text)
  | .done _ s | .failed _ s => some (s.log.map (Event.output false))
  | .outOfFuel => none

theorem output?_of_sameAfter {α : Type} {s : State} {o p : Outcome α}
    (h : o.Alike s.SameAfter p) : o.output? = p.output? := by
  cases h with
  | done h | failed h =>
    simp only [Outcome.output?, h.log]
  | outOfFuel => rfl

/-- Desugaring keeps the meaning of a for statement: what is read without an error from its
keyword on is a for statement, and without a trace the tree that it is read as runs to an end
from any state if and only if the statement itself does, and to the same one. -/
theorem for_keeps_meaning {settings : Settings} {depth : Nat} {c next : Cursor} {n : Node}
    (hquiet : settings.verbosity = 0) (h : Grammar.statement depth c = .done n next [])
    (hc : c.Closed) (hfor : c.peek.kind = .kwFor) :
    ∃ (f : For) (ts : List Token), c = next.before ts ∧ f.Spelled ts ∧
      ∀ (calls : Nat) (s : State), s.Live →
        SameEnds s.SameAfter (execute settings · calls n s) (f.run settings · calls s) := by
  obtain ⟨o, ts, rfl, hphrase, -⟩ := (Grammar.recognizesAt depth).statement h hc
  obtain ⟨t, us, rfl, -⟩ := hphrase.startsWith nofun
  obtain ⟨f, line, line', hspelled, rfl, hbody⟩ := For.exists_spelled hphrase hfor
  refine ⟨f, _, rfl, hspelled, fun calls s hs => ?_⟩
  exact sameEnds_of_improves 11 (fun _ _ hle => execute_improves hle calls _)
    (fun _ _ hle => For.run_improves hle) (For.tree_nested hquiet) (For.nested_tree hquiet)
    (For.nested_sameAfter hquiet hbody hs calls)

/-- The statement `for (var b = true; b; b = false) print b;`, which takes one turn. -/
theorem for_keeps_meaning_one_turn :
    let settings : Settings := ⟨0, .zero, 10, false⟩
    let sign (kind : Kind) (lexeme : String) : Token := .implied kind lexeme (.int 1)
    let b := sign .identifier "b"
    let yes := sign .kwTrue "true"
    let no := sign .kwFalse "false"
    let equal := sign .equal "="
    let stop := sign .semicolon ";"
    let tokens := [sign .kwFor "for", sign .leftParen "(", sign .kwVar "var", b, equal, yes, stop,
      b, stop, b, equal, no, sign .rightParen ")", sign .kwPrint "print", b, stop]
    let last := sign .eof ""
    let n := Grammar.forBlock (.var b (.literal yes)) (.name b) (.assign b (.literal no))
      (.print (.name b))
    settings.verbosity = 0 ∧ Grammar.statement 20 ⟨tokens, last⟩ = .done n ⟨[], last⟩ [] ∧
      Cursor.Closed ⟨tokens, last⟩ ∧ (Cursor.peek ⟨tokens, last⟩).kind = .kwFor ∧
      State.initial.Live ∧
      ∃ (f : For) (ts : List Token), ⟨tokens, last⟩ = Cursor.before ⟨[], last⟩ ts ∧ f.Spelled ts ∧
        SameEnds State.initial.SameAfter (execute settings · 10 n State.initial)
          (f.run settings · 10 State.initial) ∧
        ∃ fuel, (f.run settings fuel 10 State.initial).output? = some [.plain "true\n"] := by
  intro settings sign b yes no equal stop tokens last n
  have hquiet : settings.verbosity = 0 := rfl
  have h : Grammar.statement 20 ⟨tokens, last⟩ = .done n ⟨[], last⟩ [] := rfl
  have hlive : State.initial.Live := by
    unfold State.Live
    decide
  have houtput : (execute settings 12 10 n State.initial).output? = some [.plain "true\n"] := by
    decide +kernel
  have hne : execute settings 12 10 n State.initial ≠ .outOfFuel := by
    intro hout
    rw [hout] at houtput
    cases houtput
  obtain ⟨f, ts, hts, hspelled, hends⟩ := for_keeps_meaning hquiet h rfl rfl
  have hsame := hends 10 State.initial hlive
  obtain ⟨fuel, hfuel⟩ := hsame.ends.1 ⟨12, hne⟩
  refine ⟨hquiet, h, rfl, rfl, hlive, f, ts, hts, hspelled, hsame, fuel, ?_⟩
  rw [← output?_of_sameAfter (hsame.alike 12 fuel hne hfuel)]
  exact houtput

end Lox
