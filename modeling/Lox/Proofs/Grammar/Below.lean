import Lox.Program
import Lox.Proofs.Grammar.Agreement
import Lox.Proofs.Grammar.Exactness
import Lox.Proofs.Grammar.Joining
import Lox.Proofs.Grammar.Lines
import Lox.Proofs.Lexeme.Joining

/-!
A text put below another. If the text above is in order, the text below is scanned and parsed as
it would be on its own, with all that is said of it moved down by the lines above, whatever is
wrong with it. An `else` may not come first there, since it could belong to an `if` above.
-/
namespace Lox

def Datum.down (n : Nat) : Datum → Datum
  | .int line => .int (line + n)
  | d => d

def Token.down (n : Nat) (t : Token) : Token := { t with line := t.line.down n }

def Diagnostic.down (n : Nat) (d : Diagnostic) : Diagnostic := { d with line := d.line.down n }

def Relabelling.down (n : Nat) : Relabelling where
  apply := Token.down n
  kind _ := rfl
  implied _ _ _ := rfl

theorem SyntaxError.diagnostic_down (n : Nat) (e : SyntaxError) :
    (e.map (Token.down n)).diagnostic = e.diagnostic.down n := rfl

def Lexeme.down (n : Nat) (l : Lexeme) : Lexeme := { l with line := l.line + n }

def LexicalError.down (n : Nat) : LexicalError → LexicalError
  | .stray text line => .stray text (line + n)
  | .openString line => .openString (line + n)

theorem LexicalError.diagnostic_down (n : Nat) (e : LexicalError) :
    (e.down n).diagnostic = e.diagnostic.down n := by
  cases e <;> rfl

namespace Scan

def down (n : Nat) (s : Scan) : Scan :=
  ⟨s.lexemes.map (Lexeme.down n), s.errors.map (LexicalError.down n), s.endLine + n⟩

theorem tokens_down (n : Nat) (s : Scan) : (s.down n).tokens = s.tokens.map (Token.down n) := by
  simp only [tokens, down, List.map_map]
  rfl

theorem ofPieces_down (n line : Nat) (pieces : List Piece) :
    ofPieces (line + n) pieces = (ofPieces line pieces).down n := by
  induction pieces generalizing line with
  | nil => rfl
  | cons p pieces ih =>
    obtain ⟨form, text⟩ := p
    rw [ofPieces, ofPieces, Nat.add_right_comm, ih]
    cases form <;> rfl

/-- A scan followed by another one that starts on the line where the first one ends. -/
def followedBy (s t : Scan) : Scan := ⟨s.lexemes ++ t.lexemes, s.errors ++ t.errors, t.endLine⟩

theorem ofPieces_append (line : Nat) (pieces more : List Piece) :
    ofPieces line (pieces ++ more) =
      (ofPieces line pieces).followedBy (ofPieces (ofPieces line pieces).endLine more) := by
  induction pieces generalizing line with
  | nil => rfl
  | cons p pieces ih =>
    obtain ⟨form, text⟩ := p
    rw [List.cons_append, ofPieces, ofPieces, ih]
    cases form <;> rfl

end Scan

/-- A text below one without errors is scanned as on its own, further down. -/
theorem scan_below {text : List Char} (more : List Char) (htext : (scan text).errors = []) :
    scan (text ++ '\n' :: more) = (scan text).followedBy ((scan more).down (lastLine text)) := by
  have hpieces : ∀ p ∈ Piece.all text, p.isError = false := by
    rwa [scan, Scan.errors_ofPieces_eq_nil] at htext
  have hline : (Scan.ofPieces 1 (Piece.all text)).endLine = lastLine text := by
    have hline := Scan.endLine_ofPieces [] (Piece.all text)
    rwa [List.nil_append, Piece.flatMap_text_all] at hline
  rw [scan, Piece.all_joined hpieces, Scan.ofPieces_append, hline, scan, scan,
    ← Scan.ofPieces_down, Nat.add_comm 1]
  rfl

namespace Grammar

variable {depth : Nat} {tokens more : List Token} {last last' : Token}

theorem parse_of_clean (hlast : last.kind = .eof) (hlasts : last.unlined = last'.unlined)
    (hclean : (parse depth tokens last).errors = []) :
    parse depth tokens last' = ⟨(parse depth tokens last).statements, [], []⟩ := by
  have hlast' : last'.kind = .eof := by
    rw [← Token.kind_unlined, ← hlasts, Token.kind_unlined, hlast]
  have hunlined : (parse depth tokens last).unlined = (parse depth tokens last').unlined := by
    rw [← parse_unlined, ← parse_unlined, hlasts]
  have hclean' : (parse depth tokens last').errors = [] := by
    have herrors := congrArg Parse.errors hunlined
    simpa [Parse.unlined, hclean] using herrors.symm
  exact parse_covers hlast' (parse_recognizes hlast hclean) (by simp [hclean'])

/-- Behind a program in order, other tokens are parsed as on their own, also if they are not in
order. -/
theorem parse_followed (hlast : last.kind = .eof) (hclean : (parse depth tokens last).errors = [])
    (helse : NoElse more) :
    parse depth (tokens ++ more) last =
      ⟨(parse depth tokens last).statements ++ (parse depth more last).statements,
        (parse depth more last).errors, (parse depth more last).unread⟩ := by
  obtain ⟨left, hleft, hrest⟩ := programFrom_extend helse (tokens ++ more) (c := ⟨tokens, last⟩)
    hclean hlast (Nat.le_refl _) (by simp)
  rw [List.length_append] at hleft
  have hmore : programFrom depth left ⟨more, last⟩ = parse depth more last :=
    programFrom_turns hlast (by simp only; omega) (Nat.le_refl _)
  rw [hmore] at hrest
  exact hrest

theorem parse_followed_down (n : Nat) (hlast : last.kind = .eof)
    (hlasts : last.unlined = (last'.down n).unlined)
    (hclean : (parse depth tokens last).errors = []) (helse : NoElse more) :
    parse depth (tokens ++ more.map (Token.down n)) (last'.down n) =
      let rest := (parse depth more last').map (Token.down n)
      ⟨(parse depth tokens last).statements ++ rest.statements, rest.errors, rest.unread⟩ := by
  have helse' : NoElse (more.map (Token.down n)) := by
    intro t ht
    rw [List.head?_map] at ht
    obtain ⟨u, hu, rfl⟩ := Option.map_eq_some_iff.1 ht
    exact helse u hu
  have hend : (last'.down n).kind = .eof := by
    rw [← Token.kind_unlined, ← hlasts, Token.kind_unlined, hlast]
  have hfirst := parse_of_clean hlast hlasts hclean
  have hmore : parse depth (more.map (Token.down n)) (last'.down n) =
      (parse depth more last').map (Token.down n) := parse_map (.down n) depth more last'
  rw [parse_followed hend (by rw [hfirst]) helse', hfirst, hmore]

end Grammar

/-- A text below one in order. The scan has the tokens of the text above and then, further down,
those of the text below, with its errors; and parsing gives the statements of the text above and
then, further down, what it makes of the text below, in order or not. -/
theorem joined_below {text more : List Char} (htext : (scan text).errors = []) :
    let n := 1 + text.count '\n'
    let both := scan (text ++ '\n' :: more)
    both.tokens = (scan text).tokens ++ (scan more).tokens.map (Token.down n) ∧
      both.endToken = (scan more).endToken.down n ∧
      both.errors.map LexicalError.diagnostic =
        ((scan more).errors.map LexicalError.diagnostic).map (Diagnostic.down n) ∧
      ∀ depth,
        let parsed (s : Scan) := Grammar.parse depth s.tokens s.endToken
        (parsed (scan text)).errors = [] →
        (∀ t ∈ (scan more).tokens.head?, t.kind ≠ .kwElse) →
          (parsed both).statements = (parsed (scan text)).statements ++
            (parsed (scan more)).statements.map (Node.map (Token.down n)) ∧
          (parsed both).errors.map SyntaxError.diagnostic =
            ((parsed (scan more)).errors.map SyntaxError.diagnostic).map (Diagnostic.down n) ∧
          (parsed both).unread = (parsed (scan more)).unread.map (Token.down n) := by
  intro n both
  have hboth : both = (scan text).followedBy ((scan more).down n) := scan_below more htext
  have htokens : both.tokens = (scan text).tokens ++ (scan more).tokens.map (Token.down n) := by
    rw [hboth, ← Scan.tokens_down]
    exact List.map_append ..
  have hend : both.endToken = (scan more).endToken.down n := by
    rw [hboth]
    rfl
  refine ⟨htokens, hend, ?_, fun depth => ?_⟩
  · rw [hboth, Scan.followedBy, htext, Scan.down, List.nil_append, List.map_map, List.map_map]
    exact List.map_congr_left fun e _ => e.diagnostic_down n
  intro parsed hclean helse
  have hlasts : (scan text).endToken.unlined = ((scan more).endToken.down n).unlined := rfl
  have hparsed := Grammar.parse_followed_down n rfl hlasts hclean helse
  rw [← htokens, ← hend] at hparsed
  refine ⟨congrArg Grammar.Parse.statements hparsed, ?_, congrArg Grammar.Parse.unread hparsed⟩
  have herrors := congrArg (fun p => p.errors.map SyntaxError.diagnostic) hparsed
  dsimp only at herrors
  rw [herrors, Grammar.Parse.map, List.map_map, List.map_map]
  exact List.map_congr_left fun e _ => e.diagnostic_down n

/-- Above, an `if` that could still take an `else` and a comment up to the line feed; below, a
string over two lines, a stray character and tokens out of place. -/
theorem joined_below_broken :
    let text := "while (a) if (b) print 1; // else".toList
    let more := "\"x\ny\" @ + ;\nelse var = 2.".toList
    let parsed (s : Scan) := Grammar.parse Grammar.maxDepth s.tokens s.endToken
    let both := scan (text ++ '\n' :: more)
    (scan text).errors = [] ∧ (parsed (scan text)).errors = [] ∧
      (∀ t ∈ (scan more).tokens.head?, t.kind ≠ .kwElse) ∧
      both.errors.length = 1 ∧ (parsed both).errors.length = 8 ∧
      (parsed both).statements = (parsed (scan text)).statements ++
        (parsed (scan more)).statements.map (Node.map (Token.down 1)) ∧
      (parsed both).errors.map SyntaxError.diagnostic =
        ((parsed (scan more)).errors.map SyntaxError.diagnostic).map (Diagnostic.down 1) := by
  intro text more parsed both
  have hscan : (scan text).errors = [] := by decide +kernel
  have hclean : (parsed (scan text)).errors = [] := by decide +kernel
  have helse : ∀ t ∈ (scan more).tokens.head?, t.kind ≠ .kwElse := by decide +kernel
  obtain ⟨-, -, -, hparsed⟩ := @joined_below text more hscan
  obtain ⟨hstatements, herrors, -⟩ := hparsed Grammar.maxDepth hclean helse
  exact ⟨hscan, hclean, helse, by decide +kernel, by decide +kernel, hstatements, herrors⟩

end Lox
