import Lox.Proofs.Grammar.Completion
import Lox.Proofs.Grammar.Depth
import Lox.Proofs.Grammar.Limits
import Lox.Proofs.Grammar.Places

/-!
The first error is where the row goes wrong. The parser goes on after an error, and it reports some
errors late; but the first place with an error is that of the first token that cannot follow the
ones before it. What stands before the place starts some program, and with the token at the place
it starts none.
-/
namespace Lox.Grammar

variable {depth : Nat} {tokens ts us : List Token} {last : Token} {problem : Problem} {i : Nat}

/-- The first place where an error is reported. -/
def firstError (depth : Nat) (tokens : List Token) (last : Token) : Option Nat :=
  ((located depth tokens last).map Prod.fst).min?

theorem firstError_eq_some {k : Nat} :
    firstError depth tokens last = some k ↔
      (∃ problem, (k, problem) ∈ located depth tokens last) ∧
        ∀ i problem, (i, problem) ∈ located depth tokens last → k ≤ i := by
  rw [firstError, List.min?_eq_some_iff]
  simp

theorem exists_firstError (hlast : last.kind = .eof)
    (hdeep : Shallow (parse depth tokens last).errors)
    (herrors : (parse depth tokens last).errors ≠ []) :
    ∃ k, firstError depth tokens last = some k := by
  rw [errors_eq_located hlast hdeep] at herrors
  have hsome : firstError depth tokens last ≠ none := by
    rw [firstError, ne_eq, List.min?_eq_none_iff]
    simpa using herrors
  exact Option.ne_none_iff_exists'.1 hsome

theorem shallow_parse (tokens : List Token) (hlast : last.kind = .eof) :
    Shallow (parse (10 * tokens.length + 12) tokens last).errors :=
  programFrom_fits hlast (Nat.le_refl _)

theorem isLimit_of_sentence (hlast : last.kind = .eof) (h : IsSentence tokens)
    (hdeep : Shallow (parse depth tokens last).errors)
    (hi : (i, problem) ∈ located depth tokens last) : problem.IsLimit :=
  parse_sentence hlast h hdeep _ (mem_errors_of_located hlast hdeep hi)

theorem not_isSentence_of_located (hlast : last.kind = .eof)
    (hdeep : Shallow (parse depth (ts ++ us) last).errors)
    (hi : (i, problem) ∈ located depth (ts ++ us) last) (hlt : i < ts.length)
    (hlimit : ¬problem.IsLimit) (more : List Token) : ¬IsSentence (ts ++ more) := by
  intro h
  have hdeep' := shallow_parse (ts ++ more) hlast
  have hagree := located_agree hlast hlast hdeep hdeep'
  have hi' : (i, problem) ∈ (located depth (ts ++ us) last).filter (·.1 < ts.length) :=
    List.mem_filter.2 ⟨hi, decide_eq_true hlt⟩
  rw [hagree] at hi'
  exact hlimit (isLimit_of_sentence hlast h hdeep' (List.mem_filter.1 hi').1)

theorem exists_isSentence_append (hlast : last.kind = .eof) (hts : ∀ t ∈ ts, t.kind ≠ .eof)
    (hdeep : Shallow (parse depth (ts ++ us) last).errors)
    (hleast : ∀ i problem, (i, problem) ∈ located depth (ts ++ us) last → ts.length ≤ i) :
    ∃ more, IsSentence (ts ++ more) := by
  have hdeep' := shallow_parse ts hlast
  have halone : Shallow (parse (10 * ts.length + 12) (ts ++ []) last).errors := by
    rwa [List.append_nil]
  have hagree := located_agree hlast hlast hdeep halone
  have hnone : (located depth (ts ++ us) last).filter (·.1 < ts.length) = [] := by
    simpa using hleast
  rw [hnone, List.append_nil] at hagree
  refine parse_completes hlast hts hdeep' fun e he => ?_
  rw [errors_eq_located hlast hdeep'] at he
  obtain ⟨⟨i, problem⟩, hi, rfl⟩ := List.mem_map.1 he
  -- by itself the row has errors only at its end
  have hle : ts.length ≤ i := by
    have := List.filter_eq_nil_iff.1 hagree.symm _ hi
    simpa using this
  obtain rfl := Nat.le_antisymm hle (located_le hlast hdeep' hi)
  simpa using hlast

/-- The first error is at the place of the first token that no program goes on with. -/
theorem firstError_exact (hlast : last.kind = .eof) (htokens : ∀ t ∈ tokens, t.kind ≠ .eof)
    (herrors : (parse depth tokens last).errors ≠ [])
    (hproblems : ∀ e ∈ (parse depth tokens last).errors,
      ¬e.problem.IsLimit ∧ e.problem ≠ .nestedTooDeeply) :
    (parse depth tokens last).errors =
        (located depth tokens last).map (fun x => ⟨tokens.getD x.1 last, x.2⟩) ∧
      ∃ k, firstError depth tokens last = some k ∧ k ≤ tokens.length ∧
        (∃ more, IsSentence (tokens.take k ++ more)) ∧
        (k < tokens.length → ∀ more, ¬IsSentence (tokens.take (k + 1) ++ more)) ∧
        (k = tokens.length → ¬IsSentence tokens ∧
          ∃ more, more ≠ [] ∧ IsSentence (tokens ++ more)) := by
  have hdeep : Shallow (parse depth tokens last).errors := fun e he => (hproblems e he).2
  refine ⟨errors_eq_located hlast hdeep, ?_⟩
  obtain ⟨k, hk⟩ := exists_firstError hlast hdeep herrors
  obtain ⟨⟨problem, hproblem⟩, hleast⟩ := firstError_eq_some.1 hk
  have hlimit := (hproblems _ (mem_errors_of_located hlast hdeep hproblem)).1
  have hle := located_le hlast hdeep hproblem
  -- no error stands before the place, so the tokens up to it go on to a program
  have hbefore : ∃ more, IsSentence (tokens.take k ++ more) := by
    have hsplit : Shallow (parse depth (tokens.take k ++ tokens.drop k) last).errors := by
      rwa [List.take_append_drop]
    apply exists_isSentence_append hlast (fun t ht => htokens t (List.mem_of_mem_take ht)) hsplit
    rwa [List.take_append_drop, List.length_take, Nat.min_eq_left hle]
  refine ⟨k, hk, hle, hbefore, fun hlt => ?_, fun heq => ?_⟩
  · have hsplit :
        Shallow (parse depth (tokens.take (k + 1) ++ tokens.drop (k + 1)) last).errors := by
      rwa [List.take_append_drop]
    have hlt' : k < (tokens.take (k + 1)).length := by
      rw [List.length_take]
      omega
    refine not_isSentence_of_located hlast hsplit ?_ hlt' hlimit
    rwa [List.take_append_drop]
  · have hnot : ¬IsSentence tokens := fun h =>
      hlimit (isLimit_of_sentence hlast h hdeep hproblem)
    obtain ⟨more, hmore⟩ := hbefore
    rw [heq, List.take_length] at hmore
    refine ⟨hnot, more, ?_, hmore⟩
    rintro rfl
    exact hnot (by simpa using hmore)

/-- `1 = ;` has its first error at the equals sign, but that is reported only after the semicolon
has been. -/
theorem firstError_exact_equals :
    let word (kind : Kind) (lexeme : String) : Token := ⟨kind, .str lexeme, .int 1, .null, []⟩
    let tokens := [word .number "1", word .equal "=", word .semicolon ";"]
    let last := word .eof ""
    located 42 tokens last =
        [(2, .expected "expression"), (1, .invalidTarget), (3, .expected "';' after expression")] ∧
      (∃ more, IsSentence (tokens.take 1 ++ more)) ∧
      ∀ more, ¬IsSentence (tokens.take 2 ++ more) := by
  intro word tokens last
  have hlocated : located 42 tokens last =
    [(2, .expected "expression"), (1, .invalidTarget), (3, .expected "';' after expression")] := by
      decide +kernel
  have herrors : (parse 42 tokens last).errors =
    [⟨word .semicolon ";", .expected "expression"⟩, ⟨word .equal "=", .invalidTarget⟩,
      ⟨last, .expected "';' after expression"⟩] := by decide +kernel
  obtain ⟨-, k, hk, -, hbefore, hat, -⟩ :=
    @firstError_exact 42 tokens last rfl (by decide)
      (by rw [herrors]; simp) (by rw [herrors]; simp [Problem.IsLimit])
  rw [firstError, hlocated] at hk
  obtain rfl : 1 = k := Option.some.inj hk
  exact ⟨hlocated, hbefore, hat (by decide)⟩

end Lox.Grammar
