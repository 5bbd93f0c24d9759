import Lox.Grammar.Rules

/-!
How parsers move a cursor. A run is clean if it ends without an error; then the tokens it passed
over can be named, and a clean run of a sequence splits into clean runs of its parts. The other
way round, parsers that read rows of tokens one after the other read the joined row, unless the
nesting gets too deep on the way; some kinds of error may be put up with there.
-/
namespace Lox

namespace Cursor

def before (c : Cursor) (ts : List Token) : Cursor := { c with rest := ts ++ c.rest }

/-- What stands after all tokens is the end of the file. -/
def Closed (c : Cursor) : Prop := c.last.kind = .eof

@[simp] theorem before_nil (c : Cursor) : c.before [] = c := rfl

theorem before_append (c : Cursor) (ts us : List Token) :
    c.before (ts ++ us) = (c.before us).before ts := by
  simp [before]

theorem before_cons (c : Cursor) (t : Token) (ts : List Token) :
    c.before (t :: ts) = (c.before ts).before [t] := rfl

@[simp] theorem peek_before_cons (c : Cursor) (t : Token) (ts : List Token) :
    (c.before (t :: ts)).peek = t := rfl

@[simp] theorem advance_before_cons (c : Cursor) (t : Token) (ts : List Token) :
    (c.before (t :: ts)).advance = c.before ts := rfl

@[simp] theorem rest_before (c : Cursor) (ts : List Token) : (c.before ts).rest = ts ++ c.rest := rfl

@[simp] theorem last_before (c : Cursor) (ts : List Token) : (c.before ts).last = c.last := rfl

@[simp] theorem closed_before {c : Cursor} {ts : List Token} : (c.before ts).Closed ↔ c.Closed :=
  Iff.rfl

theorem Closed.eq_before {c : Cursor} (hc : c.Closed) (hk : c.peek.kind ≠ .eof) :
    c = c.advance.before [c.peek] := by
  obtain ⟨rest, last⟩ := c
  cases rest with
  | nil => exact absurd hc hk
  | cons t rest => rfl

theorem Closed.peek_nil {c : Cursor} (hc : c.Closed) (h : c.rest = []) : c.peek.kind = .eof := by
  rw [peek, h]
  exact hc

end Cursor

namespace Parser

variable {α β : Type} {c next : Cursor} {a : α} {b : β} {kind : Kind}

theorem after_done {earlier errors : List SyntaxError} {r : Parsed α}
    (h : after earlier r = .done a next errors) :
    ∃ later, r = .done a next later ∧ errors = earlier ++ later := by
  cases r with
  | tooDeep => cases h
  | done b mid later =>
    cases h
    exact ⟨later, rfl, rfl⟩

theorem bind_runs {p : Parser α} {f : α → Parser β} {errors : List SyntaxError}
    (h : (p >>= f) c = .done b next errors) :
    ∃ a mid earlier later, p c = .done a mid earlier ∧ f a mid = .done b next later ∧
      errors = earlier ++ later := by
  cases hp : p c with
  | tooDeep mid earlier =>
    rw [bind_of_tooDeep hp] at h
    cases h
  | done a mid earlier =>
    rw [bind_of_done hp] at h
    obtain ⟨later, hf, rfl⟩ := after_done h
    exact ⟨a, mid, earlier, later, rfl, hf, rfl⟩

theorem accept?_runs {kinds : List Kind} {found : Option Token} {errors : List SyntaxError}
    (h : accept? kinds c = .done found next errors) (hc : c.Closed) (hk : .eof ∉ kinds) :
    errors = [] ∧ ((∃ t, found = some t ∧ t.kind ∈ kinds ∧ c = next.before [t]) ∨
      (found = none ∧ c = next ∧ c.peek.kind ∉ kinds)) := by
  unfold accept? at h
  split at h
  · rename_i hpeek
    cases h
    exact ⟨rfl, .inl ⟨_, rfl, hpeek, hc.eq_before fun he => hk (he ▸ hpeek)⟩⟩
  · rename_i hpeek
    cases h
    exact ⟨rfl, .inr ⟨rfl, rfl, hpeek⟩⟩

theorem pure_done {a' : α} (h : (pure a : Parser α) c = .done a' next []) :
    a = a' ∧ c = next := by
  cases h
  exact ⟨rfl, rfl⟩

theorem bind_done {p : Parser α} {f : α → Parser β} (h : (p >>= f) c = .done b next []) :
    ∃ a mid, p c = .done a mid [] ∧ f a mid = .done b next [] := by
  obtain ⟨a, mid, earlier, later, hp, hf, herrors⟩ := bind_runs h
  obtain ⟨rfl, rfl⟩ := List.append_eq_nil_iff.1 herrors.symm
  exact ⟨a, mid, hp, hf⟩

theorem expect_done {what : String} {t : Token} (h : expect kind what c = .done t next [])
    (hc : c.Closed) (hk : kind ≠ .eof) : t.kind = kind ∧ c = next.before [t] := by
  unfold expect at h
  split at h
  · rename_i hpeek
    cases h
    exact ⟨hpeek, hc.eq_before (hpeek ▸ hk)⟩
  · cases h

theorem accept?_done {kinds : List Kind} {o : Option Token}
    (h : accept? kinds c = .done o next []) (hc : c.Closed) (hk : .eof ∉ kinds) :
    (∃ t, o = some t ∧ t.kind ∈ kinds ∧ c = next.before [t]) ∨
      (o = none ∧ c = next ∧ c.peek.kind ∉ kinds) :=
  (accept?_runs h hc hk).2

theorem accept_eq (kind : Kind) (c : Cursor) :
    accept kind c = if c.peek.kind = kind then .done true c.advance [] else .done false c [] := by
  by_cases h : c.peek.kind = kind
  · simp [accept, Bind.bind, Parser.bind, accept?, h, after, Pure.pure, Parser.pure]
  · simp [accept, Bind.bind, Parser.bind, accept?, h, after, Pure.pure, Parser.pure]

theorem accept_bind (kind : Kind) (f : Bool → Parser α) :
    (accept kind >>= f) = (accept? [kind] >>= fun o => f o.isSome) := by
  funext c
  by_cases h : c.peek.kind = kind
  · simp [Bind.bind, Parser.bind, accept_eq, accept?, h]
  · simp [Bind.bind, Parser.bind, accept_eq, accept?, h]

theorem accept_done {yes no : Parser α}
    (h : (accept kind >>= fun found => if found = true then yes else no) c = .done a next [])
    (hc : c.Closed) (hk : kind ≠ .eof) :
    (∃ t mid, t.kind = kind ∧ c = mid.before [t] ∧ yes mid = .done a next []) ∨
      (c.peek.kind ≠ kind ∧ no c = .done a next []) := by
  obtain ⟨found, mid, h₁, h⟩ := bind_done h
  rw [accept_eq] at h₁
  split at h₁
  · rename_i hpeek
    cases h₁
    exact .inl ⟨c.peek, c.advance, hpeek, hc.eq_before (hpeek ▸ hk), h⟩
  · rename_i hpeek
    cases h₁
    exact .inr ⟨hpeek, h⟩

theorem check_done {yes no : Parser α}
    (h : (check kind >>= fun found => if found = true then yes else no) c = .done a next []) :
    (c.peek.kind = kind ∧ yes c = .done a next []) ∨
      (c.peek.kind ≠ kind ∧ no c = .done a next []) := by
  obtain ⟨found, mid, h₁, h⟩ := bind_done h
  cases h₁
  by_cases hpeek : c.peek.kind = kind
  · exact .inl ⟨hpeek, by simpa [hpeek] using h⟩
  · exact .inr ⟨hpeek, by simpa [hpeek] using h⟩

def Stopped (r : Parsed α) : Prop := ∃ next errors, r = .tooDeep next errors

/-- Two results are the same, up to errors before the second that are put up with, unless the
first was stopped. -/
def Leads (ok : Problem → Prop) (r s : Parsed α) : Prop :=
  (∃ errors : List SyntaxError, (∀ e ∈ errors, ok e.problem) ∧ r = after errors s) ∨
    Stopped r

/-- A parser gives a value and moves on, with no error but those put up with, unless it is
stopped. -/
def Reads (ok : Problem → Prop) (p : Parser α) (c : Cursor) (a : α) (next : Cursor) : Prop :=
  Leads ok (p c) (.done a next [])

variable {ok : Problem → Prop}

theorem Leads.refl (r : Parsed α) : Leads ok r r := .inl ⟨[], by simp, (after_nil r).symm⟩

theorem Leads.of_eq {r s : Parsed α} (h : r = s) : Leads ok r s := h ▸ Leads.refl r

theorem Leads.eq_or_stopped {r s : Parsed α} (h : Leads (fun _ => False) r s) :
    r = s ∨ Stopped r := by
  obtain ⟨errors, herrors, rfl⟩ | h := h
  · have hnil : errors = [] := List.eq_nil_iff_forall_not_mem.2 herrors
    rw [hnil, after_nil]
    exact .inl rfl
  · exact .inr h

theorem Leads.trans {r s t : Parsed α} (h : Leads ok r s) (h' : Leads ok s t) :
    Leads ok r t := by
  obtain ⟨errors, herrors, rfl⟩ | h := h
  · obtain ⟨errors', herrors', rfl⟩ | ⟨next, errors', rfl⟩ := h'
    · refine .inl ⟨errors ++ errors', ?_, after_after ..⟩
      simp only [List.mem_append]
      rintro e (he | he)
      · exact herrors e he
      · exact herrors' e he
    · exact .inr ⟨next, errors ++ errors', rfl⟩
  · exact .inr h

theorem reads_tooDeep (c : Cursor) (a : α) (next : Cursor) :
    Reads ok Parser.tooDeep c a next :=
  .inr ⟨c, [], rfl⟩

theorem reads_pure (a : α) (c : Cursor) : Reads ok (pure a) c a c := Leads.refl _

theorem Leads.bind {p : Parser α} {f : α → Parser β} {mid : Cursor} {r : Parsed β}
    (hp : Reads ok p c a mid) (hf : Leads ok (f a mid) r) :
    Leads ok ((p >>= f) c) r := by
  obtain ⟨errors, herrors, hp⟩ | ⟨stop, errors, hp⟩ := hp
  · rw [after, List.append_nil] at hp
    rw [bind_of_done hp]
    exact Leads.trans (.inl ⟨errors, herrors, rfl⟩) hf
  · exact .inr ⟨stop, errors, bind_of_tooDeep hp⟩

theorem Leads.report {t : Token} {problem : Problem} {f : Unit → Parser α} {r : Parsed α}
    (h : ok problem) (hf : Leads ok (f () c) r) :
    Leads ok ((Parser.report t problem >>= f) c) r :=
  Leads.bind (.inl ⟨[⟨t, problem⟩], by simpa using h, rfl⟩) hf

theorem reads_expect {t : Token} {what : String} (h : t.kind = kind) (c : Cursor)
    (ts : List Token) :
    Reads ok (expect kind what) (c.before (t :: ts)) t (c.before ts) :=
  Leads.of_eq (by simp [expect, h])

theorem reads_accept?_some {kinds : List Kind} {t : Token} (h : t.kind ∈ kinds) (c : Cursor)
    (ts : List Token) :
    Reads ok (accept? kinds) (c.before (t :: ts)) (some t) (c.before ts) :=
  Leads.of_eq (by simp [accept?, h])

theorem reads_accept?_none {kinds : List Kind} (h : c.peek.kind ∉ kinds) :
    Reads ok (accept? kinds) c none c :=
  Leads.of_eq (by simp [accept?, h])

theorem Leads.accept_true {t : Token} {ts : List Token} {yes no : Parser α} {r : Parsed α}
    (h : t.kind = kind) (hyes : Leads ok (yes (c.before ts)) r) :
    Leads ok
      ((accept kind >>= fun found => if found = true then yes else no) (c.before (t :: ts))) r :=
  Leads.bind (a := true) (Leads.of_eq (by simp [accept_eq, h])) hyes

theorem Leads.accept_false {yes no : Parser α} {r : Parsed α} (h : c.peek.kind ≠ kind)
    (hno : Leads ok (no c) r) :
    Leads ok ((accept kind >>= fun found => if found = true then yes else no) c) r :=
  Leads.bind (a := false) (Leads.of_eq (by simp [accept_eq, h])) hno

theorem Leads.check_true {yes no : Parser α} {r : Parsed α} (h : c.peek.kind = kind)
    (hyes : Leads ok (yes c) r) :
    Leads ok ((check kind >>= fun found => if found = true then yes else no) c) r :=
  Leads.bind (a := true) (Leads.of_eq (by simp [check, h])) hyes

theorem Leads.check_false {yes no : Parser α} {r : Parsed α} (h : c.peek.kind ≠ kind)
    (hno : Leads ok (no c) r) :
    Leads ok ((check kind >>= fun found => if found = true then yes else no) c) r :=
  Leads.bind (a := false) (Leads.of_eq (by simp [check, h])) hno

end Parser

namespace Grammar

open Lox.Parser

/-- A clause that may be empty, the token that closes it, and what comes then. -/
def clause (close : Kind) (implied : Datum → Node) (what : String) (expression : Parser Node)
    (go : Node → Parser Node) : Parser Node := do
  if ← check close then
    let t ← peek
    let x ← pure (implied t.line)
    let _ ← expect close what
    go x
  else
    let x ← expression
    let _ ← expect close what
    go x

theorem forStatement_eq (expression statement : Parser Node) :
    forStatement expression statement = (do
      let _ ← expect .leftParen "'(' after 'for'"
      let initializer ← forInitializer expression
      clause .semicolon impliedTrue "';' after loop condition" expression fun condition =>
        clause .rightParen impliedNil "')' after for clauses" expression fun increment => do
          return forBlock initializer condition increment (← statement)) :=
  rfl

end Grammar

end Lox
