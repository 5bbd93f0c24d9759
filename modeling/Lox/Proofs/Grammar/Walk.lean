import Lox.Proofs.Grammar.Progress

/-!
Parsers as walks. Put together from the operations on a cursor, a parser can also be run with the
cursor as a position in the whole row of tokens, where things can go wrong that cannot with the
tokens that are left: a position outside of the row may be looked at, so may the token before the
first one, and a loop may need more turns than it has. None of this happens, and the walk finds
what the parser finds.
-/
namespace Lox.Parser

/-- What a walk comes to, where, and by which positions. It goes astray where it looks at a place
outside of the row, and is stuck where a loop has no turn left. -/
inductive Walked (α : Type) where
  | done (value : α) (place : Nat) (errors : List SyntaxError) (path : List Nat)
  | tooDeep (place : Nat) (errors : List SyntaxError) (path : List Nat)
  | astray
  | stuck
  deriving DecidableEq

def Walker (α : Type) : Type := Nat → Walked α

namespace Walker

variable {α β σ : Type}

def after (earlier : List SyntaxError) (path : List Nat) : Walked α → Walked α
  | .done a i errors further => .done a i (earlier ++ errors) (path ++ further)
  | .tooDeep i errors further => .tooDeep i (earlier ++ errors) (path ++ further)
  | .astray => .astray
  | .stuck => .stuck

instance : Monad Walker where
  pure a := fun i => .done a i [] []
  bind w f := fun i =>
    match w i with
    | .done a j errors path => after errors path (f a j)
    | .tooDeep j errors path => .tooDeep j errors path
    | .astray => .astray
    | .stuck => .stuck

@[simp] theorem after_nil (w : Walked α) : after [] [] w = w := by cases w <;> rfl

theorem bind_of_done {w : Walker α} {f : α → Walker β} {a : α} {i j : Nat}
    {errors : List SyntaxError} {path : List Nat} (h : w i = .done a j errors path) :
    (w >>= f) i = after errors path (f a j) := by
  simp only [Bind.bind, h]

def tooDeep : Walker α := fun i => .tooDeep i [] []

def report (t : Token) (problem : Problem) : Walker Unit := fun i => .done () i [⟨t, problem⟩] []

/-- To the next position, whether or not it is in the row. -/
def step : Walker Unit := fun i => .done () (i + 1) [] [i + 1]

/-- Goes on where a walk has nested too deeply. -/
def attempt (w : Walker α) : Walker (Option α) := fun i =>
  match w i with
  | .done a j errors path => .done (some a) j errors path
  | .tooDeep j errors path => .done none j errors path
  | .astray => .astray
  | .stuck => .stuck

def loop (turn : σ → Walker (σ ⊕ α)) : Nat → σ → Walker α
  | 0, _ => fun _ => .stuck
  | n + 1, s => do
    match ← turn s with
    | .inl s => loop turn n s
    | .inr a => return a

variable (row : List Token)

def peek : Walker Token := fun i =>
  match row[i]? with
  | some t => .done t i [] []
  | none => .astray

def previous : Walker Token := fun i =>
  match i with
  | 0 => .astray
  | k + 1 =>
    match row[k]? with
    | some t => .done t i [] []
    | none => .astray

/-- To the next position unless a token stands here that ends the row; then the token before. -/
def advance : Walker Token := do
  if (← peek row).kind ≠ .eof then step
  previous row

def check (kind : Kind) : Walker Bool := do
  return (← peek row).kind = kind

def accept? (kinds : List Kind) : Walker (Option Token) := do
  if (← peek row).kind ∈ kinds then
    let _ ← advance row
    return some (← previous row)
  else return none

def expect (kind : Kind) (what : String) : Walker Token := do
  if (← peek row).kind = kind then advance row
  else
    report (← peek row) (.expected what)
    peek row

end Walker

section Made

variable {α β σ : Type}

/-- From a state on, a loop comes to a result in some number of turns. -/
inductive Turns (turn : σ → Parser (σ ⊕ α)) : Nat → σ → Cursor → Parsed α → Prop
  | last {s : σ} {c next : Cursor} {a : α} {errors : List SyntaxError} :
      turn s c = .done (.inr a) next errors → Turns turn 1 s c (.done a next errors)
  | tooDeep {s : σ} {c next : Cursor} {errors : List SyntaxError} :
      turn s c = .tooDeep next errors → Turns turn 1 s c (.tooDeep next errors)
  | more {n : Nat} {s s' : σ} {c next : Cursor} {r : Parsed α} {errors : List SyntaxError} :
      turn s c = .done (.inl s') next errors → Turns turn n s' next r →
      Turns turn (n + 1) s c (after errors r)

/-- The parser is a loop from a state on, which comes to its result in no more turns than there are
tokens left and one. -/
def IsLoop (turn : σ → Parser (σ ⊕ α)) (s : σ) (p : Parser α) : Prop :=
  ∀ c, c.Closed → ∃ n ≤ c.rest.length + 1, Turns turn n s c (p c)

/-- How a parser is put together: from which operations on the cursor, and from which loops. -/
inductive Made : {α : Type} → Parser α → Type 1
  | pure {α : Type} (a : α) : Made (Pure.pure a)
  | bind {α β : Type} {p : Parser α} {f : α → Parser β} :
      Made p → (∀ a, Made (f a)) → Made (p >>= f)
  | tooDeep {α : Type} : Made (Parser.tooDeep : Parser α)
  | report (t : Token) (problem : Problem) : Made (Parser.report t problem)
  | peek : Made Parser.peek
  | check (kind : Kind) : Made (Parser.check kind)
  | skip : Made Parser.skip
  | accept? (kinds : List Kind) : .eof ∉ kinds → Made (Parser.accept? kinds)
  | expect (kind : Kind) (what : String) : kind ≠ .eof → Made (Parser.expect kind what)
  | choice {α : Type} {p q : Parser α} (c : Prop) [Decidable c] :
      Made p → Made q → Made (if c then p else q)
  | loop {σ α : Type} {turn : σ → Parser (σ ⊕ α)} {s : σ} {p : Parser α} :
      (∀ s, Made (turn s)) → IsLoop turn s p → Made p

namespace Made

/-- The walk of a parser through a row of tokens, in which every loop has some number of turns. -/
def walk (row : List Token) (turns : Nat) : {α : Type} → {p : Parser α} → Made p → Walker α
  | _, _, .pure a => Pure.pure a
  | _, _, .bind m f => m.walk row turns >>= fun a => (f a).walk row turns
  | _, _, .tooDeep => Walker.tooDeep
  | _, _, .report t problem => Walker.report t problem
  | _, _, .peek => Walker.peek row
  | _, _, .check kind => Walker.check row kind
  | _, _, .skip => Walker.advance row >>= fun _ => Pure.pure ()
  | _, _, .accept? kinds _ => Walker.accept? row kinds
  | _, _, .expect kind what _ => Walker.expect row kind what
  | _, _, @choice _ _ _ c _ m m' => if c then m.walk row turns else m'.walk row turns
  | _, _, @loop _ _ _ s _ m _ => Walker.loop (fun s => (m s).walk row turns) turns s

end Made

end Made

end Lox.Parser

namespace Lox

open Lox.Parser

/-- A row of tokens that has an end, and no other. -/
structure Row where
  tokens : List Token
  last : Token
  ends : last.kind = .eof
  endsOnce : ∀ t ∈ tokens, t.kind ≠ .eof

namespace Row

variable {α β σ : Type} (row : Row)

def all : List Token := row.tokens ++ [row.last]

def size : Nat := row.tokens.length

def cursor (i : Nat) : Cursor := ⟨row.tokens.drop i, row.last⟩

theorem closed_cursor (i : Nat) : (row.cursor i).Closed := row.ends

theorem length_rest (i : Nat) : (row.cursor i).rest.length = row.size - i :=
  List.length_drop ..

variable {row} {i : Nat}

theorem rest_cursor (hi : i < row.size) :
    (row.cursor i).rest = row.tokens[i] :: row.tokens.drop (i + 1) :=
  List.drop_eq_getElem_cons hi

theorem peek_cursor (hi : i < row.size) : (row.cursor i).peek = row.tokens[i] := by
  rw [Cursor.peek, rest_cursor hi, List.headD_cons]

theorem rest_size : (row.cursor row.size).rest = [] := List.drop_length

theorem peek_size : (row.cursor row.size).peek = row.last := by
  rw [Cursor.peek, rest_size]
  rfl

theorem advance_cursor : (row.cursor i).advance = row.cursor (i + 1) := by
  rw [Cursor.advance, cursor, cursor, List.tail_drop]

theorem lt_size (hi : i ≤ row.size) (hpeek : (row.cursor i).peek.kind ≠ .eof) : i < row.size := by
  refine Nat.lt_of_le_of_ne hi ?_
  rintro rfl
  rw [peek_size] at hpeek
  exact hpeek row.ends

theorem all_getElem? (hi : i ≤ row.size) : row.all[i]? = some (row.cursor i).peek := by
  obtain hlt | rfl := Nat.lt_or_eq_of_le hi
  · rw [all, List.getElem?_append_left hlt, peek_cursor hlt, List.getElem?_eq_getElem hlt]
  · rw [all, peek_size]
    exact List.getElem?_concat_length

/-- A walk from a position comes to the same as a parse, and by every position up to where it
ends, one after the other. -/
inductive Agrees (row : Row) (i : Nat) : Walked α → Parsed α → Prop
  | done {a : α} {k : Nat} {errors : List SyntaxError} : i + k ≤ row.size →
      Agrees row i (.done a (i + k) errors (List.range' (i + 1) k))
        (.done a (row.cursor (i + k)) errors)
  | tooDeep {k : Nat} {errors : List SyntaxError} : i + k ≤ row.size →
      Agrees row i (.tooDeep (i + k) errors (List.range' (i + 1) k))
        (.tooDeep (row.cursor (i + k)) errors)

/-- The walk comes to the same as the parser from everywhere in the row. -/
def Follows (row : Row) (w : Walker α) (p : Parser α) : Prop :=
  ∀ i ≤ row.size, row.Agrees i (w i) (p (row.cursor i))

theorem Agrees.stay (hi : i ≤ row.size) (a : α) (errors : List SyntaxError) :
    row.Agrees i (.done a i errors []) (.done a (row.cursor i) errors) :=
  @Agrees.done α row i a 0 errors hi

theorem Agrees.step (hi : i < row.size) (a : α) :
    row.Agrees i (.done a (i + 1) [] [i + 1]) (.done a (row.cursor (i + 1)) []) :=
  @Agrees.done α row i a 1 [] hi

theorem range'_path (i k m : Nat) :
    List.range' (i + 1) k ++ List.range' (i + k + 1) m = List.range' (i + 1) (k + m) := by
  rw [Nat.add_right_comm i k 1, List.range'_append_1]

theorem Agrees.after {k : Nat} {w : Walked α} {r : Parsed α} (errors : List SyntaxError)
    (h : row.Agrees (i + k) w r) :
    row.Agrees i (Walker.after errors (List.range' (i + 1) k) w) (Parser.after errors r) := by
  cases h with
  | done hm =>
    rw [Nat.add_assoc] at hm
    rw [Walker.after, range'_path, Nat.add_assoc]
    exact .done hm
  | tooDeep hm =>
    rw [Nat.add_assoc] at hm
    rw [Walker.after, range'_path, Nat.add_assoc]
    exact .tooDeep hm

theorem Agrees.bind {w : Walker α} {f : α → Walker β} {p : Parser α} {g : α → Parser β}
    (h : row.Agrees i (w i) (p (row.cursor i))) (hf : ∀ a, row.Follows (f a) (g a)) :
    row.Agrees i ((w >>= f) i) ((p >>= g) (row.cursor i)) := by
  simp only [Bind.bind, Parser.bind]
  generalize w i = walked, p (row.cursor i) = parsed at h
  cases h with
  | done hk => exact .after _ (hf _ _ hk)
  | tooDeep hk => exact .tooDeep hk

theorem Follows.bind {w : Walker α} {f : α → Walker β} {p : Parser α} {g : α → Parser β}
    (h : row.Follows w p) (hf : ∀ a, row.Follows (f a) (g a)) :
    row.Follows (w >>= f) (p >>= g) :=
  fun i hi => (h i hi).bind hf

theorem follows_pure (a : α) : row.Follows (pure a) (pure a) := fun _ hi => .stay hi a []

theorem follows_tooDeep : row.Follows (Walker.tooDeep : Walker α) Parser.tooDeep :=
  fun i hi => @Agrees.tooDeep α row i 0 [] hi

theorem follows_report (t : Token) (problem : Problem) :
    row.Follows (Walker.report t problem) (Parser.report t problem) :=
  fun _ hi => .stay hi () [⟨t, problem⟩]

theorem peek_walk (hi : i ≤ row.size) :
    Walker.peek row.all i = .done (row.cursor i).peek i [] [] := by
  rw [Walker.peek, all_getElem? hi]

theorem follows_peek : row.Follows (Walker.peek row.all) Parser.peek := by
  intro i hi
  rw [peek_walk hi]
  exact .stay hi _ []

theorem check_walk (kind : Kind) (hi : i ≤ row.size) :
    Walker.check row.all kind i = .done (decide ((row.cursor i).peek.kind = kind)) i [] [] := by
  rw [Walker.check, Walker.bind_of_done (peek_walk hi)]
  rfl

theorem follows_check (kind : Kind) :
    row.Follows (Walker.check row.all kind) (Parser.check kind) := by
  intro i hi
  rw [check_walk kind hi]
  exact .stay hi _ []

theorem previous_walk (hi : i < row.size) :
    Walker.previous row.all (i + 1) = .done (row.cursor i).peek (i + 1) [] [] := by
  simp only [Walker.previous, all_getElem? (Nat.le_of_lt hi)]

theorem advance_walk (hi : i < row.size) :
    Walker.advance row.all i = .done (row.cursor i).peek (i + 1) [] [i + 1] := by
  have hkind : (row.cursor i).peek.kind ≠ .eof := by
    rw [peek_cursor hi]
    exact row.endsOnce _ (List.getElem_mem hi)
  rw [Walker.advance, Walker.bind_of_done (peek_walk (Nat.le_of_lt hi)), if_pos hkind,
    Walker.after_nil, Walker.bind_of_done rfl]
  exact congrArg (Walker.after [] [i + 1]) (previous_walk hi)

theorem advance_walk_size (hsize : 0 < row.size) :
    ∃ t, Walker.advance row.all row.size = .done t row.size [] [] := by
  obtain ⟨k, hk⟩ := Nat.exists_eq_add_one.2 hsize
  have hprevious : Walker.previous row.all (k + 1) = _ := previous_walk (by omega)
  have hkind : ¬(row.cursor row.size).peek.kind ≠ .eof := by
    rw [peek_size]
    exact not_not_intro row.ends
  refine ⟨(row.cursor k).peek, ?_⟩
  rw [Walker.advance, Walker.bind_of_done (peek_walk (Nat.le_refl _)), if_neg hkind,
    Walker.after_nil, hk]
  exact hprevious

theorem follows_skip (hsize : 0 < row.size) :
    row.Follows (Walker.advance row.all >>= fun _ => pure ()) Parser.skip := by
  intro i hi
  rw [Parser.skip, advance_cursor]
  obtain hlt | rfl := Nat.lt_or_eq_of_le hi
  · rw [Walker.bind_of_done (advance_walk hlt)]
    exact .step hlt ()
  · obtain ⟨t, ht⟩ := advance_walk_size hsize
    rw [Walker.bind_of_done ht]
    have hstays : row.cursor (row.size + 1) = row.cursor row.size := by
      simp [cursor, size]
    rw [hstays]
    exact .stay hi () []

theorem follows_accept? {kinds : List Kind} (hk : .eof ∉ kinds) :
    row.Follows (Walker.accept? row.all kinds) (Parser.accept? kinds) := by
  intro i hi
  rw [Walker.accept?, Walker.bind_of_done (peek_walk hi), Walker.after_nil, Parser.accept?]
  by_cases hpeek : (row.cursor i).peek.kind ∈ kinds
  · have hlt := lt_size hi fun heof => hk (heof ▸ hpeek)
    rw [if_pos hpeek, if_pos hpeek, Walker.bind_of_done (advance_walk hlt),
      Walker.bind_of_done (previous_walk hlt), advance_cursor]
    exact .step hlt _
  · rw [if_neg hpeek, if_neg hpeek]
    exact .stay hi none []

theorem follows_expect {kind : Kind} {what : String} (hk : kind ≠ .eof) :
    row.Follows (Walker.expect row.all kind what) (Parser.expect kind what) := by
  intro i hi
  rw [Walker.expect, Walker.bind_of_done (peek_walk hi), Walker.after_nil, Parser.expect]
  by_cases hpeek : (row.cursor i).peek.kind = kind
  · have hlt := lt_size hi fun heof => hk (hpeek.symm.trans heof)
    rw [if_pos hpeek, if_pos hpeek, advance_walk hlt, advance_cursor]
    exact .step hlt _
  · rw [if_neg hpeek, if_neg hpeek, Walker.bind_of_done (peek_walk hi), Walker.after_nil,
      Walker.bind_of_done rfl, peek_walk hi]
    exact .stay hi _ _

theorem Agrees.of_done {w : Walked α} {a : α} {next : Cursor} {errors : List SyntaxError}
    (h : row.Agrees i w (.done a next errors)) :
    ∃ k, i + k ≤ row.size ∧ next = row.cursor (i + k) ∧
      w = .done a (i + k) errors (List.range' (i + 1) k) := by
  cases h with
  | done hk => exact ⟨_, hk, rfl, rfl⟩

theorem Agrees.of_tooDeep {w : Walked α} {next : Cursor} {errors : List SyntaxError}
    (h : row.Agrees i w (.tooDeep next errors)) :
    ∃ k, i + k ≤ row.size ∧ next = row.cursor (i + k) ∧
      w = .tooDeep (i + k) errors (List.range' (i + 1) k) := by
  cases h with
  | tooDeep hk => exact ⟨_, hk, rfl, rfl⟩

theorem agrees_loop {w : σ → Walker (σ ⊕ α)} {turn : σ → Parser (σ ⊕ α)}
    (h : ∀ s, row.Follows (w s) (turn s)) {n turns : Nat} {s : σ} {c : Cursor} {r : Parsed α}
    (hr : Turns turn n s c r) (hc : c = row.cursor i) (hi : i ≤ row.size) (hn : n ≤ turns) :
    row.Agrees i (Walker.loop w turns s i) r := by
  induction hr generalizing i turns with
  | @last s c next a errors hturn =>
    subst hc
    obtain ⟨turns, rfl⟩ := Nat.exists_eq_add_one.2 hn
    obtain ⟨k, hk, rfl, hw⟩ := Agrees.of_done (hturn ▸ h s i hi)
    have hstay := Agrees.after errors (.stay hk a [])
    rw [Walker.loop, Walker.bind_of_done hw]
    rwa [Parser.after, List.append_nil] at hstay
  | @tooDeep s c next errors hturn =>
    subst hc
    obtain ⟨turns, rfl⟩ := Nat.exists_eq_add_one.2 hn
    obtain ⟨k, hk, rfl, hw⟩ := Agrees.of_tooDeep (hturn ▸ h s i hi)
    simp only [Walker.loop, Bind.bind, hw]
    exact .tooDeep hk
  | @more n s s' c next r errors hturn hr ih =>
    subst hc
    obtain ⟨turns, rfl⟩ := Nat.exists_eq_add_one.2 (Nat.lt_of_lt_of_le n.succ_pos hn)
    obtain ⟨k, hk, rfl, hw⟩ := Agrees.of_done (hturn ▸ h s i hi)
    rw [Walker.loop, Walker.bind_of_done hw]
    exact .after errors (ih rfl hk (Nat.le_of_succ_le_succ hn))

/-- From everywhere in a row the walk of a parser comes to what the parser does, if every loop has
more turns than there are tokens in the row. -/
theorem follows_walk {p : Parser α} (m : Made p) (hsize : 0 < row.size) {turns : Nat}
    (hturns : row.size < turns) : row.Follows (m.walk row.all turns) p := by
  induction m with
  | pure a => exact follows_pure a
  | bind _ _ ih ihf => exact ih.bind ihf
  | tooDeep => exact follows_tooDeep
  | report t problem => exact follows_report t problem
  | peek => exact follows_peek
  | check kind => exact follows_check kind
  | skip => exact follows_skip hsize
  | accept? kinds hk => exact follows_accept? hk
  | expect kind what hk => exact follows_expect hk
  | choice c _ _ ih ih' =>
    rw [Made.walk]
    split
    · exact ih
    · exact ih'
  | @loop _ _ turn s p _ hloop ih =>
    intro i hi
    obtain ⟨n, hn, hr⟩ := hloop (row.cursor i) (row.closed_cursor i)
    rw [length_rest] at hn
    exact agrees_loop ih hr rfl hi (by omega)

end Row

end Lox
