import Lox.Grammar.Parse
import Lox.Proofs.Grammar.Reading

/-!
Every parser goes onward: what it passes over it does not come back to, and what it reports stands
there from its start on. A loop that takes at least one token a turn therefore does the same
however many turns it may take, if they are no fewer than the tokens left.
-/
namespace Lox

namespace Cursor

def Ahead (c : Cursor) (t : Token) : Prop := t ∈ c.last :: c.rest

theorem ahead_peek (c : Cursor) : c.Ahead c.peek := by
  obtain ⟨rest, last⟩ := c
  cases rest <;> simp [Ahead, peek]

theorem ahead_before {c : Cursor} {ts : List Token} {t : Token} :
    (c.before ts).Ahead t ↔ t ∈ ts ∨ c.Ahead t := by
  simp only [Ahead, rest_before, last_before, List.mem_cons, List.mem_append]
  exact or_left_comm

theorem Ahead.before {c : Cursor} {t : Token} (h : c.Ahead t) (ts : List Token) :
    (c.before ts).Ahead t :=
  ahead_before.2 (.inr h)

end Cursor

namespace Parser

variable {α β : Type} {moves : Bool} {n : Nat}

/-- A run passes over some tokens, or over at least one if it `moves` and there is one left; and
it reports none from before its start. -/
def Onward (moves : Bool) (p : Parser α) : Prop :=
  ∀ ⦃c a next errors⦄, p c = .done a next errors → c.Closed →
    ∃ ts, c = next.before ts ∧ (moves = true → c.rest ≠ [] → ts ≠ []) ∧
      ∀ e ∈ errors, c.Ahead e.token

theorem Onward.weak {p : Parser α} (h : Onward moves p) : Onward false p := by
  intro c a next errors hrun hc
  obtain ⟨ts, hts, -, herrors⟩ := h hrun hc
  exact ⟨ts, hts, nofun, herrors⟩

theorem onward_tooDeep : Onward moves (tooDeep : Parser α) := by
  intro c a next errors h
  cases h

theorem onward_stay {f : Cursor → α} : Onward false fun c => .done (f c) c [] := by
  intro c a next errors h _
  cases h
  exact ⟨[], rfl, nofun, by simp⟩

theorem onward_pure (a : α) : Onward false (pure a) := onward_stay (f := fun _ => a)

theorem onward_peek : Onward false peek := onward_stay

theorem onward_check (kind : Kind) : Onward false (check kind) := onward_stay

theorem onward_skip : Onward true skip := by
  intro c a next errors h _
  cases h
  obtain ⟨rest, last⟩ := c
  cases rest with
  | nil => exact ⟨[], rfl, by simp, by simp⟩
  | cons t rest => exact ⟨[t], rfl, by simp, by simp⟩

theorem onward_expect {kind : Kind} {what : String} (hk : kind ≠ .eof) :
    Onward false (expect kind what) := by
  intro c a next errors h hc
  unfold expect at h
  split at h
  · rename_i hpeek
    cases h
    exact ⟨[c.peek], hc.eq_before (hpeek ▸ hk), nofun, by simp⟩
  · cases h
    exact ⟨[], rfl, nofun, by simpa using c.ahead_peek⟩

theorem Onward.seq {moves' : Bool} {p : Parser α} {f : α → Parser β} (hp : Onward moves p)
    (hf : ∀ a, Onward moves' (f a)) : Onward (moves || moves') (p >>= f) := by
  intro c b next errors h hc
  obtain ⟨a, mid, earlier, later, hrun, hrun', rfl⟩ := bind_runs h
  obtain ⟨ts, rfl, hts, hearlier⟩ := hp hrun hc
  obtain ⟨us, rfl, hus, hlater⟩ := hf a hrun' hc
  refine ⟨ts ++ us, by rw [Cursor.before_append], fun hm hrest hnil => ?_, fun e he => ?_⟩
  · obtain ⟨rfl, rfl⟩ := List.append_eq_nil_iff.1 hnil
    obtain hm | hm := Bool.or_eq_true_iff.1 hm
    · exact hts hm hrest rfl
    · exact hus hm hrest rfl
  · obtain he | he := List.mem_append.1 he
    · exact hearlier e he
    · exact (hlater e he).before ts

theorem Onward.bind {p : Parser α} {f : α → Parser β} (hp : Onward moves p)
    (hf : ∀ a, Onward false (f a)) : Onward moves (p >>= f) := by
  simpa using hp.seq hf

def complain (problem : Problem) : Parser Token := fun c => .done c.peek c [⟨c.peek, problem⟩]

theorem complain_bind (problem : Problem) (f : Token → Parser α) :
    (peek >>= fun t => report t problem >>= fun _ => f t) = (complain problem >>= f) := by
  funext c
  simp [Bind.bind, Parser.bind, peek, report, complain]

theorem onward_complain (problem : Problem) : Onward false (complain problem) := by
  intro c a next errors h _
  cases h
  exact ⟨[], rfl, nofun, by simpa using c.ahead_peek⟩

theorem onward_accept? {kinds : List Kind} (hk : .eof ∉ kinds) :
    Onward false (accept? kinds) := by
  intro c found next errors h hc
  obtain ⟨rfl, ⟨t, -, -, hbefore⟩ | ⟨-, hnext, -⟩⟩ := accept?_runs h hc hk
  · exact ⟨[t], hbefore, nofun, by simp⟩
  · exact ⟨[], hnext, nofun, by simp⟩

theorem Onward.accept? {kinds : List Kind} {f : Option Token → Parser α} (hk : .eof ∉ kinds)
    (hsome : ∀ t, Onward false (f (some t))) (hnone : Onward moves (f none)) :
    Onward moves (Parser.accept? kinds >>= f) := by
  intro c a next errors h hc
  obtain ⟨found, mid, earlier, later, hrun, hrun', rfl⟩ := bind_runs h
  obtain ⟨rfl, ⟨t, rfl, -, rfl⟩ | ⟨rfl, rfl, -⟩⟩ := accept?_runs hrun hc hk
  · obtain ⟨ts, rfl, -, herrors⟩ := hsome t hrun' hc
    exact ⟨t :: ts, rfl, by simp, fun e he => (herrors e he).before [t]⟩
  · exact hnone hrun' hc

/-- Two parsers do the same where at most some number of tokens is left. -/
def SameTo (n : Nat) (p q : Parser α) : Prop :=
  ∀ c, c.Closed → c.rest.length ≤ n → p c = q c

theorem SameTo.refl (p : Parser α) : SameTo n p p := fun _ _ _ => rfl

theorem SameTo.symm {p q : Parser α} (h : SameTo n p q) : SameTo n q p :=
  fun c hc hlen => (h c hc hlen).symm

theorem SameTo.bind {p : Parser α} {f g : α → Parser β} (hp : Onward moves p)
    (h : ∀ a, SameTo n (f a) (g a)) : SameTo n (p >>= f) (p >>= g) := by
  intro c hc hlen
  cases hrun : p c with
  | tooDeep next errors => rw [bind_of_tooDeep hrun, bind_of_tooDeep hrun]
  | done a next errors =>
    obtain ⟨ts, rfl, -⟩ := hp hrun hc
    rw [Cursor.rest_before, List.length_append] at hlen
    rw [bind_of_done hrun, bind_of_done hrun, h a next hc (by omega)]

theorem SameTo.first {p q : Parser α} (h : SameTo n p q) (f : α → Parser β) :
    SameTo n (p >>= f) (q >>= f) := by
  intro c hc hlen
  simp only [Bind.bind, Parser.bind, h c hc hlen]

theorem SameTo.accept? {kinds : List Kind} {f g : Option Token → Parser α} (hk : .eof ∉ kinds)
    (hsome : ∀ t, SameTo n (f (some t)) (g (some t))) (hnone : f none = g none) :
    SameTo (n + 1) (Parser.accept? kinds >>= f) (Parser.accept? kinds >>= g) := by
  intro c hc hlen
  cases hrun : Parser.accept? kinds c with
  | tooDeep next errors => rw [bind_of_tooDeep hrun, bind_of_tooDeep hrun]
  | done found next errors =>
    rw [bind_of_done hrun, bind_of_done hrun]
    obtain ⟨-, ⟨t, rfl, -, rfl⟩ | ⟨rfl, rfl, -⟩⟩ := accept?_runs hrun hc hk
    · rw [hsome t next hc (by simpa using hlen)]
    · rw [hnone]

theorem sameTo_accept? {kinds : List Kind} {f : Option Token → Parser α} (hk : .eof ∉ kinds) :
    SameTo 0 (Parser.accept? kinds >>= f) (f none) := by
  intro c hc hlen
  have hpeek := hc.peek_nil (List.eq_nil_of_length_eq_zero (Nat.le_zero.1 hlen))
  have hrun : Parser.accept? kinds c = .done none c [] := by simp [Parser.accept?, hpeek, hk]
  rw [bind_of_done hrun, after_nil]

/-- A loop does the same however many turns it may take, if those are no fewer than the tokens
left. -/
def Settled (loop : List Token → Parser α) : Prop :=
  ∀ turns turns', SameTo (min turns.length turns'.length) (loop turns) (loop turns')

/-- A loop over a state that needs no turn where nothing is left, and one turn for at least one
token else. -/
theorem settled_loop {σ : Type} {loop : σ → List Token → Parser α}
    (hend : ∀ s t turns, SameTo 0 (loop s (t :: turns)) (loop s []))
    (hturn : ∀ s t t' turns turns' n, (∀ s', SameTo n (loop s' turns) (loop s' turns')) →
      SameTo (n + 1) (loop s (t :: turns)) (loop s (t' :: turns'))) (s : σ) :
    Settled (loop s) := by
  intro turns
  induction turns generalizing s with
  | nil =>
    intro turns'
    cases turns' with
    | nil => exact SameTo.refl _
    | cons t' turns' => simpa using (hend s t' turns').symm
  | cons t turns ih =>
    intro turns'
    cases turns' with
    | nil => simpa using hend s t turns
    | cons t' turns' =>
      simp only [List.length_cons, Nat.add_min_add_right]
      exact hturn s t t' turns turns' _ fun s' => ih s' turns'

theorem Settled.bounded_eq {loop : List Token → Parser α} (h : Settled loop) {c : Cursor}
    (hc : c.Closed) {turns : List Token} (hlen : c.rest.length ≤ turns.length) :
    bounded loop c = loop turns c :=
  h c.rest turns c hc (by omega)

theorem onward_bounded {loop : List Token → Parser α} (h : ∀ turns, Onward moves (loop turns)) :
    Onward moves (bounded loop) :=
  fun c => h c.rest (c := c)

end Parser

namespace Grammar

open Lox.Parser

variable {declaration expression operand : Parser Node} {moves : Bool} {n : Nat}

theorem limit_eq {α : Type} {count : Nat} {problem : Problem} {go : Unit → Parser α} :
    (if maxArguments ≤ count then
        (do let t ← peek
            let r ← report t problem
            go r)
      else go ()) =
    (if maxArguments ≤ count then complain problem >>= fun _ => go () else go ()) := by
  rw [← complain_bind]

theorem sameTo_limit {α : Type} {count : Nat} {problem : Problem} {go go' : Unit → Parser α}
    (h : SameTo n (go ()) (go' ())) :
    SameTo n
      (if maxArguments ≤ count then
        (do let t ← peek
            let r ← report t problem
            go r)
      else go ())
      (if maxArguments ≤ count then
        (do let t ← peek
            let r ← report t problem
            go' r)
      else go' ()) := by
  rw [limit_eq, limit_eq]
  split
  · exact SameTo.bind (onward_complain problem) fun _ => h
  · exact h

theorem settled_parameters (count : Nat) : Settled (parameters count) := by
  apply settled_loop
  · intro count t turns
    unfold parameters
    refine sameTo_limit (SameTo.bind (onward_expect (by decide)) fun param => ?_)
    simp only [accept_bind]
    exact sameTo_accept? (by decide)
  · intro count t t' turns turns' n ih
    unfold parameters
    refine sameTo_limit (SameTo.bind (onward_expect (by decide)) fun param => ?_)
    simp only [accept_bind]
    exact SameTo.accept? (by decide) (fun comma => (ih (count + 1)).first _) rfl

theorem settled_arguments (he : Onward moves expression) (count : Nat) :
    Settled (arguments expression count) := by
  apply settled_loop
  · intro count t turns
    unfold arguments
    refine sameTo_limit (SameTo.bind he fun argument => ?_)
    simp only [accept_bind]
    exact sameTo_accept? (by decide)
  · intro count t t' turns turns' n ih
    unfold arguments
    refine sameTo_limit (SameTo.bind he fun argument => ?_)
    simp only [accept_bind]
    exact SameTo.accept? (by decide) (fun comma => (ih (count + 1)).first _) rfl

theorem settled_callTail (h : ∀ callee, Onward moves (finishCall expression callee))
    (callee : Node) :
    Settled (callTail expression callee) := by
  apply settled_loop
  · intro callee t turns
    unfold callTail
    simp only [accept_bind]
    exact sameTo_accept? (by decide)
  · intro callee t t' turns turns' n ih
    unfold callTail
    simp only [accept_bind]
    exact SameTo.accept? (by decide) (fun paren => SameTo.bind (h callee) ih) rfl

theorem settled_chainTail (ho : Onward moves operand) (level : Level) (left : Node) :
    Settled (chainTail level operand left) := by
  apply settled_loop
  · intro left t turns
    exact sameTo_accept? (by cases level <;> decide)
  · intro left t t' turns turns' n ih
    refine SameTo.accept? (by cases level <;> decide) (fun operator => ?_) rfl
    exact SameTo.bind ho fun right => ih _

theorem declarations_cons (t : Token) (turns : List Token) (c : Cursor) :
    declarations declaration (t :: turns) c =
      if c.peek.kind = .rightBrace ∨ c.peek.kind = .eof then .done [] c []
      else (do return (← declaration) :: (← declarations declaration turns) : Parser _) c := by
  by_cases hb : c.peek.kind = .rightBrace
  · simp [declarations, Bind.bind, Parser.bind, check, hb, Pure.pure, Parser.pure, after]
  · by_cases he : c.peek.kind = .eof
    · simp [declarations, Bind.bind, Parser.bind, check, he, Pure.pure, Parser.pure, after]
    · simp [declarations, Bind.bind, Parser.bind, check, hb, he]

theorem settled_declarations (hd : Onward true declaration) :
    Settled (declarations declaration) := by
  refine @settled_loop _ Unit (fun _ => declarations declaration) ?_ ?_ ()
  · intro _ t turns c hc hlen
    have hpeek := hc.peek_nil (List.eq_nil_of_length_eq_zero (Nat.le_zero.1 hlen))
    rw [declarations_cons, if_pos (.inr hpeek)]
    rfl
  · intro _ t t' turns turns' n ih c hc hlen
    rw [declarations_cons, declarations_cons]
    split
    · rfl
    rename_i hpeek
    cases hrun : declaration c with
    | tooDeep next errors => rw [bind_of_tooDeep hrun, bind_of_tooDeep hrun]
    | done first next errors =>
      rw [bind_of_done hrun, bind_of_done hrun]
      obtain ⟨ts, rfl, hmoves, -⟩ := hd hrun hc
      have hts := List.length_pos_iff.2 (hmoves rfl fun hnil => hpeek (.inr (hc.peek_nil hnil)))
      rw [Cursor.rest_before, List.length_append] at hlen
      rw [(ih ()).first _ next hc (by omega)]

theorem programFrom_done {depth : Nat} {turn : Token} {turns : List Token} {c next : Cursor}
    {n : Node} {errors : List SyntaxError} (hend : c.atEnd = false)
    (h : Grammar.declaration depth c = .done n next errors) :
    programFrom depth (turn :: turns) c =
      ⟨n :: (programFrom depth turns next).statements,
        errors ++ (programFrom depth turns next).errors,
        (programFrom depth turns next).unread⟩ := by
  simp [programFrom, hend, h]

theorem programFrom_tooDeep {depth : Nat} {turn : Token} {turns : List Token} {c next : Cursor}
    {errors : List SyntaxError} (hend : c.atEnd = false)
    (h : Grammar.declaration depth c = .tooDeep next errors) :
    programFrom depth (turn :: turns) c =
      ⟨[], errors ++ [⟨next.peek, .nestedTooDeeply⟩], next.rest⟩ := by
  simp [programFrom, hend, h]

end Grammar

end Lox
