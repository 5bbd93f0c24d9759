import Lox.Proofs.Machine.Safety
import Lox.Session

/-!
A session of source texts shows no defect. Every step that ends gives a value of the language or
an error of the program, at a token that the scan of one of the texts made; and what the frames
bind stays within the language, with functions from the texts that were run.
-/
namespace Lox

/-- A value of the language. A function has to be one of those that were run. -/
def Value.Known (ran : Declaration → Prop) : Value → Prop
  | .foreign .. => False
  | .function _ d => ran d
  | _ => True

/-- The token was scanned in one of the texts. -/
def Scanned (texts : List (List Char)) (t : Token) : Prop := ∃ text ∈ texts, t ∈ (scan text).tokens

/-- The function was declared in the tree of one of the texts. -/
def DeclaredIn (texts : List (List Char)) (d : Declaration) : Prop :=
  ∃ text ∈ texts, ∃ statements, program text = .ok statements ∧ d.node.Within (.list statements)

/-- How a step may end that runs one of the texts. -/
def Ending.Defined (texts : List (List Char)) : Ending → Prop
  | .value v => v.Known (DeclaredIn texts)
  | .fault (.error e) => Scanned texts e.token ∧ e.token.kind ∉ Grammar.literalKinds
  | .fault (.defect _) => False
  | .rejected _ => False
  | .outOfFuel => True

def Session.after (s : Session) (steps : List (Nat × List Char)) : Session :=
  steps.foldl (fun s step => (s.runSource step.1 step.2).session) s

variable {source : Token → Prop} {stored : Declaration → Prop} {texts : List (List Char)}

theorem Value.Proper.known {v : Value} (h : v.Proper source stored) : v.Known stored := by
  cases v with
  | function id d => exact h.2.2.1
  | foreign => exact h.elim
  | _ => trivial

theorem Scanned.lexeme {t : Token} (h : Scanned texts t) : ∃ name : String, t.lexeme = .str name := by
  obtain ⟨text, -, ht⟩ := h
  obtain ⟨l, rfl⟩ := Scan.exists_lexeme ht
  exact l.lexeme_token

theorem Scanned.isConstant {t : Token} (h : Scanned texts t) (hk : t.kind ∈ Grammar.literalKinds) :
    t.IsConstant := by
  obtain ⟨text, -, ht⟩ := h
  obtain ⟨l, rfl⟩ := Scan.exists_lexeme ht
  exact l.isConstant_token hk

theorem State.proper_initial : State.initial.store.Proper source stored := State.all_initial trivial

theorem Session.run_proper {s : Session} {statements : List Node} (fuel : Nat)
    (before : List Event)
    (hname : ∀ t, source t → ∃ name : String, t.lexeme = .str name)
    (hs : s.state.store.Proper source stored)
    (hstatements : ∀ n ∈ statements, n.Proper source stored .declaration) :
    (s.run fuel before statements).session.state.store.Proper source stored ∧
      match (s.run fuel before statements).ending with
      | .value v => v.Proper source stored
      | .fault f => f.Fair source
      | .rejected _ => False
      | .outOfFuel => True := by
  have hproper : (Query.executeAll .nil statements).Proper source stored :=
    ⟨Value.proper_nil, hstatements⟩
  have h := hproper.holds s.settings hname fuel s.settings.maxCalls { s.state with log := [] } hs
  rw [Query.run] at h
  unfold Session.run
  dsimp only
  split
  · rename_i v t hrun
    rw [hrun] at h
    exact ⟨h.2, h.1⟩
  · rename_i e t hrun
    rw [hrun] at h
    exact ⟨h.2, h.1⟩
  · rename_i f t _ hrun
    rw [hrun] at h
    exact ⟨h.2, h.1⟩
  · exact ⟨State.proper_initial, trivial⟩

theorem program_proper_scanned {text : List Char} {statements : List Node} (htext : text ∈ texts)
    (h : program text = .ok statements) :
    ∀ n ∈ statements, n.Proper (Scanned texts) (DeclaredIn texts) .declaration :=
  program_proper h (fun _ ht => ⟨text, htext, ht⟩) (fun _ hd => ⟨text, htext, statements, h, hd⟩)
    (fun _ => Scanned.isConstant)

theorem Session.runSource_proper {s : Session} {text : List Char} (fuel : Nat) (htext : text ∈ texts)
    (haccepted : ∃ statements, program text = .ok statements)
    (hs : s.state.store.Proper (Scanned texts) (DeclaredIn texts)) :
    (s.runSource fuel text).session.state.store.Proper (Scanned texts) (DeclaredIn texts) ∧
      (s.runSource fuel text).ending.Defined texts := by
  obtain ⟨statements, hprogram⟩ := haccepted
  obtain ⟨hstore, hending⟩ :=
    run_proper fuel [] (fun t => Scanned.lexeme) hs (program_proper_scanned htext hprogram)
  simp only [runSource, hprogram]
  refine ⟨hstore, ?_⟩
  cases hend : (s.run fuel [] statements).ending with
  | value v =>
    rw [hend] at hending
    exact Value.Proper.known hending
  | rejected stage =>
    rw [hend] at hending
    exact hending.elim
  | fault f =>
    rw [hend] at hending
    cases f with
    | error e => exact hending
    | defect d => exact hending.elim
  | outOfFuel => trivial

theorem Session.after_proper {s : Session} {steps : List (Nat × List Char)}
    (hsteps : ∀ step ∈ steps, step.2 ∈ texts ∧ ∃ statements, program step.2 = .ok statements)
    (hs : s.state.store.Proper (Scanned texts) (DeclaredIn texts)) :
    (s.after steps).state.store.Proper (Scanned texts) (DeclaredIn texts) := by
  induction steps generalizing s with
  | nil => exact hs
  | cons step steps ih =>
    obtain ⟨hmem, haccepted⟩ := hsteps step (by simp)
    exact ih (fun other h => hsteps other (by simp [h]))
      (runSource_proper step.1 hmem haccepted hs).1

/-- After any accepted texts, a step that runs one more ends in one of the defined ways, and all
that its frames bind is known. -/
theorem Session.runSource_defined (settings : Settings) (earlier : List (Nat × List Char))
    (fuel : Nat) (text : List Char)
    (haccepted : ∀ t ∈ earlier.map Prod.snd ++ [text], ∃ statements, program t = .ok statements) :
    let texts := earlier.map Prod.snd ++ [text]
    let step := (Session.after { settings } earlier).runSource fuel text
    step.ending.Defined texts ∧
      ∀ f ∈ step.session.state.store.frames, ∀ b ∈ f.bindings, b.2.Known (DeclaredIn texts) := by
  intro texts step
  have hearlier : ∀ s ∈ earlier, s.2 ∈ texts ∧ ∃ statements, program s.2 = .ok statements := by
    intro s hs
    have hmem : s.2 ∈ texts := List.mem_append_left _ (List.mem_map_of_mem hs)
    exact ⟨hmem, haccepted _ hmem⟩
  have hlast : text ∈ texts := List.mem_append_right _ (List.mem_singleton_self _)
  obtain ⟨hstore, hending⟩ := runSource_proper fuel hlast (haccepted _ hlast)
    (after_proper (s := { settings }) hearlier State.proper_initial)
  exact ⟨hending, fun f hf b hb => (hstore f hf b hb).known⟩

theorem exists_program {text : List Char} (h : (program text).toOption.isSome = true) :
    ∃ statements, program text = .ok statements := by
  cases hp : program text with
  | ok statements => exact ⟨statements, rfl⟩
  | error r =>
    rw [hp] at h
    cases h

/-- A function from an earlier text fails in a later one, and the error is at its own token. -/
theorem Session.runSource_defined_later :
    let first := "fun f(x) \x7b y = x; \x7d".toList
    let second := "f(1);".toList
    (∀ t ∈ [first, second], ∃ statements, program t = .ok statements) ∧
      ((Session.after { settings := ⟨2, .zero, 10, true⟩ } [(50, first)]).runSource 50
        second).ending.Defined [first, second] := by
  intro first second
  have haccepted : ∀ t ∈ [first, second], ∃ statements, program t = .ok statements := by
    simp only [List.mem_cons, List.not_mem_nil, or_false]
    rintro t (rfl | rfl)
    · exact exists_program (by decide +kernel)
    · exact exists_program (by decide +kernel)
  exact ⟨haccepted, (runSource_defined ⟨2, .zero, 10, true⟩ [(50, first)] 50 second haccepted).1⟩

end Lox
