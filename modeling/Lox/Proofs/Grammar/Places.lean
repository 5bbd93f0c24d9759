import Lox.Proofs.Grammar.Agreement
import Lox.Proofs.Grammar.Relabel

/-!
The places of errors. A token by itself does not tell where in a row it stands, for another one
may be equal to it. But parsing does not look at lines, so the tokens can be numbered by giving
each its place for a line; an error in the numbered row then has its place with it. Rows that
start alike have the same errors at the places they share.
-/
namespace Lox

def Relabelling.relined (f : Datum → Datum) : Relabelling where
  apply t := { t with line := f t.line }
  kind _ := rfl
  implied _ _ _ := rfl

namespace Token

def numbered (t : Token) (i : Nat) : Token := { t with line := .int i }

def number (t : Token) : Nat :=
  match t.line with
  | .int i => i.toNat
  | _ => 0

@[simp] theorem number_numbered (t : Token) (i : Nat) : (t.numbered i).number = i := rfl

end Token

namespace Grammar

open Lox.Parser

variable {depth : Nat} {tokens : List Token} {last : Token}

def numbered (tokens : List Token) : List Token := tokens.mapIdx fun i t => t.numbered i

/-- The places and problems of the errors in a parse. -/
def located (depth : Nat) (tokens : List Token) (last : Token) : List (Nat × Problem) :=
  (parse depth (numbered tokens) (last.numbered tokens.length)).errors.map fun e =>
    (e.token.number, e.problem)

def lineAt (tokens : List Token) (last : Token) : Datum → Datum
  | .int i => (tokens.getD i.toNat last).line
  | d => d

theorem relined_numbered (tokens : List Token) (last : Token) (i : Nat) :
    Relabelling.relined (lineAt tokens last) ((tokens.getD i last).numbered i) =
      tokens.getD i last := rfl

theorem map_numbered (tokens : List Token) (last : Token) :
    (numbered tokens).map (Relabelling.relined (lineAt tokens last)) = tokens := by
  apply List.ext_getElem
  · simp [numbered]
  · intro i h _
    simp only [numbered, List.length_map, List.length_mapIdx] at h
    have hget : tokens.getD i last = tokens[i] := by simp [h]
    simp only [numbered, List.getElem_map, List.getElem_mapIdx]
    rw [← hget, relined_numbered]

theorem relined_last (tokens : List Token) (last : Token) :
    Relabelling.relined (lineAt tokens last) (last.numbered tokens.length) = last := by
  have hlast : tokens.getD tokens.length last = last := by simp
  have h := relined_numbered tokens last tokens.length
  rwa [hlast] at h

theorem parse_numbered (depth : Nat) (tokens : List Token) (last : Token) :
    parse depth tokens last =
      (parse depth (numbered tokens) (last.numbered tokens.length)).map
        (Relabelling.relined (lineAt tokens last)) := by
  rw [← parse_map, map_numbered, relined_last]

theorem eq_numbered {t : Token} (h : t ∈ last.numbered tokens.length :: numbered tokens) :
    t = (tokens.getD t.number last).numbered t.number ∧ t.number ≤ tokens.length := by
  obtain rfl | h := List.mem_cons.1 h
  · simp
  · obtain ⟨i, hi, rfl⟩ := List.mem_mapIdx.1 h
    simp [hi, Nat.le_of_lt hi]

theorem shallow_numbered (hdeep : Shallow (parse depth tokens last).errors) :
    Shallow (parse depth (numbered tokens) (last.numbered tokens.length)).errors := by
  rw [parse_numbered] at hdeep
  exact fun e he => hdeep (e.map _) (List.mem_map_of_mem he)

theorem numbered_ahead (hlast : last.kind = .eof)
    (hdeep : Shallow (parse depth tokens last).errors) :
    ∀ e ∈ (parse depth (numbered tokens) (last.numbered tokens.length)).errors,
      e.token ∈ last.numbered tokens.length :: numbered tokens :=
  programFrom_ahead (c := ⟨numbered tokens, last.numbered tokens.length⟩) hlast
    (shallow_numbered hdeep)

theorem located_le (hlast : last.kind = .eof) (hdeep : Shallow (parse depth tokens last).errors)
    {i : Nat} {problem : Problem} (h : (i, problem) ∈ located depth tokens last) :
    i ≤ tokens.length := by
  obtain ⟨e, he, heq⟩ := List.mem_map.1 h
  cases heq
  exact (eq_numbered (numbered_ahead hlast hdeep e he)).2

theorem errors_eq_located (hlast : last.kind = .eof)
    (hdeep : Shallow (parse depth tokens last).errors) :
    (parse depth tokens last).errors =
      (located depth tokens last).map fun x => ⟨tokens.getD x.1 last, x.2⟩ := by
  rw [parse_numbered, Parse.map, located, List.map_map]
  refine List.map_congr_left fun e he => ?_
  obtain ⟨htoken, -⟩ := eq_numbered (numbered_ahead hlast hdeep e he)
  rw [SyntaxError.map, htoken, relined_numbered]
  rfl

theorem mem_errors_of_located (hlast : last.kind = .eof)
    (hdeep : Shallow (parse depth tokens last).errors) {i : Nat} {problem : Problem}
    (h : (i, problem) ∈ located depth tokens last) :
    ⟨tokens.getD i last, problem⟩ ∈ (parse depth tokens last).errors := by
  rw [errors_eq_located hlast hdeep]
  exact List.mem_map.2 ⟨(i, problem), h, rfl⟩

def numberedAfter (n : Nat) (tokens : List Token) (last : Token) : Cursor :=
  ⟨tokens.mapIdx fun i t => t.numbered (i + n), last.numbered (n + tokens.length)⟩

theorem parse_numbered_append (depth : Nat) (ts us : List Token) (last : Token) :
    parse depth (numbered (ts ++ us)) (last.numbered (ts ++ us).length) =
      programFrom depth (numbered (ts ++ us))
        ((numberedAfter ts.length us last).before (numbered ts)) := by
  rw [parse, Cursor.before, numberedAfter, numbered, List.mapIdx_append, List.length_append]
  rfl

theorem far_numberedAfter (n : Nat) (tokens : List Token) (last : Token) :
    (numberedAfter n tokens last).Far fun t => t.number < n := by
  intro t h
  obtain rfl | h := List.mem_cons.1 h
  · exact decide_eq_false (Nat.not_lt.2 (Nat.le_add_right ..))
  · obtain ⟨i, -, rfl⟩ := List.mem_mapIdx.1 h
    exact decide_eq_false (Nat.not_lt.2 (Nat.le_add_left ..))

theorem closed_numberedAfter (n : Nat) (tokens : List Token) (hlast : last.kind = .eof) :
    (numberedAfter n tokens last).Closed :=
  hlast

theorem located_filter (depth n : Nat) (tokens : List Token) (last : Token) :
    (located depth tokens last).filter (·.1 < n) =
      (nearErrors (fun t => t.number < n)
        (parse depth (numbered tokens) (last.numbered tokens.length)).errors).map
          fun e => (e.token.number, e.problem) :=
  List.filter_map

/-- Rows that start alike have the same errors where they are alike. -/
theorem located_agree {depth' : Nat} {ts us us' : List Token} {last' : Token}
    (hlast : last.kind = .eof) (hlast' : last'.kind = .eof)
    (hdeep : Shallow (parse depth (ts ++ us) last).errors)
    (hdeep' : Shallow (parse depth' (ts ++ us') last').errors) :
    (located depth (ts ++ us) last).filter (·.1 < ts.length) =
      (located depth' (ts ++ us') last').filter (·.1 < ts.length) := by
  have hrow := shallow_numbered hdeep
  have hrow' := shallow_numbered hdeep'
  rw [located_filter, located_filter]
  rw [parse_numbered_append] at hrow hrow' ⊢
  rw [parse_numbered_append]
  rw [programFrom_agree (closed_numberedAfter _ us hlast) (closed_numberedAfter _ us' hlast')
    (far_numberedAfter _ us last) (far_numberedAfter _ us' last') (by simp [numbered])
    (by simp [numbered]) hrow hrow']

end Grammar

end Lox
