import Lox.Proofs.Grammar.Termination

/-!
A bound on the nesting only cuts a parse short. Of two depths the smaller one either makes no
difference or strikes somewhere, and up to there the parser has read and reported the same: what
it keeps are the declarations before the one in which the bound was hit, and the errors so far.
-/
namespace Lox

variable {α β : Type}

/-- What a parser reported, whether or not it came to a result. -/
def Parsed.errors : Parsed α → List SyntaxError
  | .done _ _ errors => errors
  | .tooDeep _ errors => errors

namespace Parser

/-- The first parser does what the second one does, unless it nests too deeply; then the second one
reports at least what the first one has. -/
def Truncates (p q : Parser α) : Prop :=
  ∀ c, p c = q c ∨ ∃ next errors, p c = .tooDeep next errors ∧ errors <+: (q c).errors

theorem truncates_refl (p : Parser α) : Truncates p p := fun _ => .inl rfl

theorem truncates_tooDeep (q : Parser α) : Truncates tooDeep q :=
  fun c => .inr ⟨c, [], rfl, List.nil_prefix⟩

theorem errors_after (earlier : List SyntaxError) (r : Parsed α) :
    (after earlier r).errors = earlier ++ r.errors := by
  cases r <;> rfl

theorem errors_start_bind (q : Parser α) (g : α → Parser β) (c : Cursor) :
    (q c).errors <+: ((q >>= g) c).errors := by
  cases hrun : q c with
  | done a next errors =>
    rw [bind_of_done hrun, errors_after]
    exact List.prefix_append ..
  | tooDeep next errors =>
    rw [bind_of_tooDeep hrun]
    exact List.prefix_refl _

theorem Truncates.bind {p q : Parser α} {f g : α → Parser β} (hp : Truncates p q)
    (hf : ∀ a, Truncates (f a) (g a)) : Truncates (p >>= f) (q >>= g) := by
  intro c
  obtain hsame | ⟨next, errors, hdeep, hstart⟩ := hp c
  · cases hrun : p c with
    | tooDeep next errors =>
      rw [bind_of_tooDeep hrun, bind_of_tooDeep (hsame.symm.trans hrun)]
      exact .inl rfl
    | done a next errors =>
      rw [bind_of_done hrun, bind_of_done (hsame.symm.trans hrun)]
      obtain hsame' | ⟨next', errors', hdeep, hstart⟩ := hf a next
      · exact .inl (congrArg _ hsame')
      · refine .inr ⟨next', errors ++ errors', ?_, ?_⟩
        · rw [hdeep]
          rfl
        · rw [errors_after]
          exact (List.prefix_append_right_inj errors).2 hstart
  · exact .inr ⟨next, errors, bind_of_tooDeep hdeep, hstart.trans (errors_start_bind q g c)⟩

theorem truncates_bind {p : Parser α} {f g : α → Parser β} (hf : ∀ a, Truncates (f a) (g a)) :
    Truncates (p >>= f) (p >>= g) :=
  (truncates_refl p).bind hf

theorem Truncates.ite {p p' q q' : Parser α} (b : Bool) (hp : Truncates p q)
    (hp' : Truncates p' q') :
    Truncates (if b = true then p else p') (if b = true then q else q') := by
  cases b with
  | true => exact hp
  | false => exact hp'

theorem Truncates.bounded {loop loop' : List Token → Parser α}
    (h : ∀ turns, Truncates (loop turns) (loop' turns)) :
    Truncates (bounded loop) (bounded loop') :=
  fun c => h c.rest c

theorem Truncates.eq_of_done {p q : Parser α} (h : Truncates p q) {c next : Cursor} {a : α}
    {errors : List SyntaxError} (hrun : p c = .done a next errors) : q c = .done a next errors := by
  obtain hsame | ⟨_, _, hdeep, -⟩ := h c
  · exact hsame.symm.trans hrun
  · rw [hrun] at hdeep
    cases hdeep

theorem Truncates.errors_of_tooDeep {p q : Parser α} (h : Truncates p q) {c next : Cursor}
    {errors : List SyntaxError} (hrun : p c = .tooDeep next errors) : errors <+: (q c).errors := by
  obtain hsame | ⟨_, _, hdeep, hstart⟩ := h c
  · rw [← hsame, hrun]
    exact List.prefix_refl _
  · rw [hrun] at hdeep
    cases hdeep
    exact hstart

end Parser

namespace Grammar

open Lox.Parser

section Rules

variable {declaration declaration' statement statement' expression expression' : Parser Node}
  {operand operand' : Parser Node}

theorem truncates_limit {count : Nat} {problem : Problem} {go go' : Unit → Parser α}
    (h : Truncates (go ()) (go' ())) :
    Truncates
      (if maxArguments ≤ count then
        (do let t ← peek
            let r ← report t problem
            go r)
      else go ())
      (if maxArguments ≤ count then
        (do let t ← peek
            let r ← report t problem
            go' r)
      else go' ()) := by
  split
  · exact truncates_bind fun _ => truncates_bind fun _ => h
  · exact h

theorem truncates_arguments (he : Truncates expression expression') (count : Nat)
    (turns : List Token) :
    Truncates (arguments expression count turns) (arguments expression' count turns) := by
  induction turns generalizing count with
  | nil =>
    unfold arguments
    exact truncates_limit (he.bind fun _ => truncates_refl _)
  | cons turn turns ih =>
    unfold arguments
    refine truncates_limit (he.bind fun argument => truncates_bind fun found => ?_)
    exact Truncates.ite found ((ih (count + 1)).bind fun _ => truncates_refl _) (truncates_refl _)

theorem truncates_declarations (hd : Truncates declaration declaration') (turns : List Token) :
    Truncates (declarations declaration turns) (declarations declaration' turns) := by
  induction turns with
  | nil => exact truncates_refl _
  | cons turn turns ih =>
    refine truncates_bind fun brace => Truncates.ite brace (truncates_refl _) ?_
    refine truncates_bind fun eof => Truncates.ite eof (truncates_refl _) ?_
    exact hd.bind fun first => ih.bind fun rest => truncates_refl _

theorem truncates_block (hd : Truncates declaration declaration') :
    Truncates (block declaration) (block declaration') :=
  (Truncates.bounded (truncates_declarations hd)).bind fun _ => truncates_refl _

theorem truncates_functionDeclaration (hd : Truncates declaration declaration') :
    Truncates (functionDeclaration declaration) (functionDeclaration declaration') := by
  have hbody (target : Token) (params : List Token) : Truncates (do
      let _ ← expect .rightParen "')' after parameters"
      let _ ← expect .leftBrace "'\x7b' before function body"
      return .function target params (← block declaration) : Parser Node) (do
      let _ ← expect .rightParen "')' after parameters"
      let _ ← expect .leftBrace "'\x7b' before function body"
      return .function target params (← block declaration') : Parser Node) :=
    truncates_bind fun _ => truncates_bind fun _ => (truncates_block hd).bind fun _ =>
      truncates_refl _
  refine truncates_bind fun target => truncates_bind fun _ => truncates_bind fun empty => ?_
  exact Truncates.ite empty (truncates_bind (hbody target)) (truncates_bind (hbody target))

theorem truncates_varDeclaration (he : Truncates expression expression') :
    Truncates (varDeclaration expression) (varDeclaration expression') :=
  truncates_bind fun _ => truncates_bind fun found =>
    Truncates.ite found (he.bind fun _ => truncates_refl _) (truncates_refl _)

theorem truncates_expressionStatement (he : Truncates expression expression') :
    Truncates (expressionStatement expression) (expressionStatement expression') :=
  he.bind fun _ => truncates_refl _

theorem truncates_printStatement (he : Truncates expression expression') :
    Truncates (printStatement expression) (printStatement expression') :=
  he.bind fun _ => truncates_refl _

theorem truncates_ifStatement (he : Truncates expression expression')
    (hs : Truncates statement statement') :
    Truncates (ifStatement expression statement) (ifStatement expression' statement') := by
  refine truncates_bind fun _ => he.bind fun _ => truncates_bind fun _ => hs.bind fun _ => ?_
  exact truncates_bind fun found =>
    Truncates.ite found (hs.bind fun _ => truncates_refl _) (truncates_refl _)

theorem truncates_whileStatement (he : Truncates expression expression')
    (hs : Truncates statement statement') :
    Truncates (whileStatement expression statement) (whileStatement expression' statement') :=
  truncates_bind fun _ => he.bind fun _ => truncates_bind fun _ => hs.bind fun _ =>
    truncates_refl _

theorem truncates_forInitializer (he : Truncates expression expression') :
    Truncates (forInitializer expression) (forInitializer expression') :=
  truncates_bind fun found => Truncates.ite found (truncates_refl _) <|
    truncates_bind fun found => Truncates.ite found (truncates_varDeclaration he)
      (truncates_expressionStatement he)

theorem truncates_clause {close : Kind} {implied : Datum → Node} {what : String}
    {go go' : Node → Parser Node} (he : Truncates expression expression')
    (hgo : ∀ x, Truncates (go x) (go' x)) :
    Truncates (clause close implied what expression go)
      (clause close implied what expression' go') := by
  refine truncates_bind fun empty => Truncates.ite empty ?_ ?_
  · exact truncates_bind fun t => truncates_bind fun x => truncates_bind fun _ => hgo x
  · exact he.bind fun x => truncates_bind fun _ => hgo x

theorem truncates_forStatement (he : Truncates expression expression')
    (hs : Truncates statement statement') :
    Truncates (forStatement expression statement) (forStatement expression' statement') := by
  rw [forStatement_eq, forStatement_eq]
  refine truncates_bind fun _ => (truncates_forInitializer he).bind fun _ => ?_
  refine truncates_clause he fun _ => truncates_clause he fun _ => ?_
  exact hs.bind fun _ => truncates_refl _

theorem truncates_statementRule (hd : Truncates declaration declaration')
    (hs : Truncates statement statement') (he : Truncates expression expression') :
    Truncates (statementRule declaration statement expression)
      (statementRule declaration' statement' expression') := by
  refine truncates_bind fun found => Truncates.ite found (truncates_ifStatement he hs) ?_
  refine truncates_bind fun found => Truncates.ite found (truncates_printStatement he) ?_
  refine truncates_bind fun found => Truncates.ite found (truncates_whileStatement he hs) ?_
  refine truncates_bind fun found => Truncates.ite found (truncates_forStatement he hs) ?_
  exact truncates_bind fun found => Truncates.ite found
    ((truncates_block hd).bind fun _ => truncates_refl _) (truncates_expressionStatement he)

theorem truncates_declarationRule (hd : Truncates declaration declaration')
    (hs : Truncates statement statement') (he : Truncates expression expression') :
    Truncates (declarationRule declaration statement expression)
      (declarationRule declaration' statement' expression') :=
  truncates_bind fun found => Truncates.ite found (truncates_functionDeclaration hd) <|
    truncates_bind fun found => Truncates.ite found (truncates_varDeclaration he) hs

theorem truncates_chainTail {level : Level} (ho : Truncates operand operand') (left : Node)
    (turns : List Token) :
    Truncates (chainTail level operand left turns) (chainTail level operand' left turns) := by
  induction turns generalizing left with
  | nil => exact truncates_refl _
  | cons turn turns ih =>
    refine truncates_bind fun found => ?_
    cases found with
    | none => exact truncates_refl _
    | some operator => exact ho.bind fun right => ih _

theorem truncates_chainRule {level : Level} (ho : Truncates operand operand') :
    Truncates (chainRule level operand) (chainRule level operand') :=
  ho.bind fun left => Truncates.bounded (truncates_chainTail ho left)

theorem truncates_assignmentRule {assignment assignment' chain chain' : Parser Node}
    (ha : Truncates assignment assignment') (hc : Truncates chain chain') :
    Truncates (assignmentRule assignment chain) (assignmentRule assignment' chain') := by
  refine hc.bind fun target => truncates_bind fun found => ?_
  cases found with
  | none => exact truncates_refl _
  | some equals => exact ha.bind fun value => truncates_refl _

theorem truncates_unaryRule {unary unary' call call' : Parser Node} (hu : Truncates unary unary')
    (hc : Truncates call call') : Truncates (unaryRule unary call) (unaryRule unary' call') := by
  refine truncates_bind fun found => ?_
  cases found with
  | none => exact hc
  | some operator => exact hu.bind fun _ => truncates_refl _

theorem truncates_finishCall (he : Truncates expression expression') (callee : Node) :
    Truncates (finishCall expression callee) (finishCall expression' callee) :=
  truncates_bind fun empty => Truncates.ite empty (truncates_refl _) <|
    (Truncates.bounded (truncates_arguments he 0)).bind fun _ => truncates_refl _

theorem truncates_callTail (he : Truncates expression expression') (callee : Node)
    (turns : List Token) :
    Truncates (callTail expression callee turns) (callTail expression' callee turns) := by
  induction turns generalizing callee with
  | nil => exact truncates_refl _
  | cons turn turns ih =>
    exact truncates_bind fun found => Truncates.ite found
      ((truncates_finishCall he callee).bind ih) (truncates_refl _)

theorem truncates_callRule {primary primary' : Parser Node} (he : Truncates expression expression')
    (hp : Truncates primary primary') :
    Truncates (callRule expression primary) (callRule expression' primary') :=
  hp.bind fun callee => Truncates.bounded (truncates_callTail he callee)

theorem truncates_primaryRule (he : Truncates expression expression') :
    Truncates (primaryRule expression) (primaryRule expression') := by
  refine truncates_bind fun found => ?_
  cases found with
  | some token => exact truncates_refl _
  | none =>
    refine truncates_bind fun found => ?_
    cases found with
    | some token => exact truncates_refl _
    | none =>
      exact truncates_bind fun found => Truncates.ite found (he.bind fun _ => truncates_refl _)
        (truncates_refl _)

end Rules

structure TruncatesAt (d d' : Nat) : Prop where
  declaration : Truncates (Grammar.declaration d) (Grammar.declaration d')
  statement : Truncates (Grammar.statement d) (Grammar.statement d')
  expression : Truncates (Grammar.expression d) (Grammar.expression d')
  chain (level : Level) : Truncates (Grammar.chain level d) (Grammar.chain level d')
  unary : Truncates (Grammar.unary d) (Grammar.unary d')
  call : Truncates (Grammar.call d) (Grammar.call d')
  primary : Truncates (Grammar.primary d) (Grammar.primary d')

theorem truncatesAt {d d' : Nat} (h : d ≤ d') : TruncatesAt d d' := by
  induction d generalizing d' with
  | zero =>
    constructor
    case chain => exact fun level => truncates_tooDeep _
    all_goals exact truncates_tooDeep _
  | succ d ih =>
    obtain ⟨d', rfl⟩ := Nat.exists_eq_add_one.2 (Nat.lt_of_lt_of_le d.succ_pos h)
    have ih := ih (Nat.le_of_succ_le_succ h)
    constructor
    case declaration => exact truncates_declarationRule ih.declaration ih.statement ih.expression
    case statement => exact truncates_statementRule ih.declaration ih.statement ih.expression
    case expression => exact truncates_assignmentRule ih.expression (ih.chain .or)
    case chain =>
      intro level
      refine truncates_chainRule ?_
      cases level with
      | factor => exact ih.unary
      | _ => exact ih.chain _
    case unary => exact truncates_unaryRule ih.unary ih.call
    case call => exact truncates_callRule ih.expression ih.primary
    case primary => exact truncates_primaryRule ih.expression

/-- Declarations are read one after the other from a cursor to another one. -/
inductive Reads (depth : Nat) : Cursor → List Node → List SyntaxError → Cursor → Prop
  | nil {c : Cursor} : Reads depth c [] [] c
  | cons {c next stop : Cursor} {first : Node} {rest : List Node}
      {errors errors' : List SyntaxError} : c.atEnd = false →
      declaration depth c = .done first next errors → Reads depth next rest errors' stop →
      Reads depth c (first :: rest) (errors ++ errors') stop

/-- The bound on the nesting is hit in the declaration after the ones that are read. -/
inductive Strikes (depth : Nat) (start : Cursor) :
    List Node → List SyntaxError → Cursor → Prop
  | intro {stop place : Cursor} {read : List Node} {errors more : List SyntaxError} :
      Reads depth start read errors stop → stop.atEnd = false →
      declaration depth stop = .tooDeep place more →
      Strikes depth start read (errors ++ more) place

variable {depth depth' : Nat} {c next stop : Cursor} {first : Node} {read : List Node}
  {errors : List SyntaxError}

theorem Reads.mono (hdepth : depth ≤ depth') (h : Reads depth c read errors stop) :
    Reads depth' c read errors stop := by
  induction h with
  | nil => exact .nil
  | cons hend hrun _ ih => exact .cons hend ((truncatesAt hdepth).declaration.eq_of_done hrun) ih

theorem declaration_takes (hc : c.Closed) (hend : c.atEnd = false)
    (hrun : declaration depth c = .done first next errors) :
    next.Closed ∧ next.rest.length < c.rest.length := by
  obtain ⟨ts, rfl, hmoves, -⟩ := onward_declaration depth hrun hc
  have hrest : (next.before ts).rest ≠ [] := by simpa [Cursor.atEnd] using hend
  have hts := List.length_pos_iff.2 (hmoves rfl hrest)
  refine ⟨hc, ?_⟩
  rw [Cursor.rest_before, List.length_append]
  omega

theorem exists_reads (depth : Nat) (hc : c.Closed) :
    (∃ read errors stop, Reads depth c read errors stop ∧ stop.atEnd = true) ∨
      ∃ read reported place, Strikes depth c read reported place := by
  induction hlen : c.rest.length using Nat.strongRecOn generalizing c with
  | _ n ih =>
    cases hend : c.atEnd with
    | true => exact .inl ⟨[], [], c, .nil, hend⟩
    | false =>
      cases hrun : declaration depth c with
      | tooDeep next errors => exact .inr ⟨[], _, next, .intro .nil hend hrun⟩
      | done first next errors =>
        obtain ⟨hclosed, hless⟩ := declaration_takes hc hend hrun
        obtain ⟨_, _, _, hreads, hstop⟩ | ⟨_, _, _, ⟨hreads, hstop, hdeep⟩⟩ :=
          ih _ (hlen ▸ hless) hclosed rfl
        · exact .inl ⟨_, _, _, .cons hend hrun hreads, hstop⟩
        · exact .inr ⟨_, _, _, .intro (.cons hend hrun hreads) hstop hdeep⟩

/-- The rest of a program, with as many turns as there are tokens left. -/
def programAt (depth : Nat) (c : Cursor) : Parse := programFrom depth c.rest c

theorem programAt_end (hend : c.atEnd = true) : programAt depth c = ⟨[], [], []⟩ :=
  programFrom_end (by simpa [Cursor.atEnd] using hend)

theorem exists_turn (hend : c.atEnd = false) : ∃ turn turns, c.rest = turn :: turns :=
  List.exists_cons_of_ne_nil (by simpa [Cursor.atEnd] using hend)

theorem programAt_tooDeep (hend : c.atEnd = false)
    (hrun : declaration depth c = .tooDeep next errors) :
    programAt depth c = ⟨[], errors ++ [⟨next.peek, .nestedTooDeeply⟩], next.rest⟩ := by
  obtain ⟨turn, turns, hrest⟩ := exists_turn hend
  rw [programAt, hrest, programFrom_tooDeep hend hrun]

theorem programAt_done (hc : c.Closed) (hend : c.atEnd = false)
    (hrun : declaration depth c = .done first next errors) :
    programAt depth c =
      ⟨first :: (programAt depth next).statements, errors ++ (programAt depth next).errors,
        (programAt depth next).unread⟩ := by
  obtain ⟨turn, turns, hrest⟩ := exists_turn hend
  obtain ⟨hclosed, hless⟩ := declaration_takes hc hend hrun
  rw [hrest, List.length_cons] at hless
  have hturns : programFrom depth turns next = programAt depth next :=
    programFrom_turns hclosed (by omega) (Nat.le_refl _)
  rw [programAt, hrest, programFrom_done hend hrun, hturns]

theorem Reads.programAt_eq (hc : c.Closed) (h : Reads depth c read errors stop) :
    programAt depth c =
      ⟨read ++ (programAt depth stop).statements, errors ++ (programAt depth stop).errors,
        (programAt depth stop).unread⟩ := by
  induction h with
  | nil => rfl
  | cons hend hrun _ ih =>
    rw [programAt_done hc hend hrun, ih (declaration_takes hc hend hrun).1, List.cons_append,
      List.append_assoc]

theorem Reads.programAt_mono (hc : c.Closed) (hdepth : depth ≤ depth')
    (h : Reads depth c read errors stop) (hend : stop.atEnd = true) :
    programAt depth c = programAt depth' c := by
  rw [h.programAt_eq hc, (h.mono hdepth).programAt_eq hc, programAt_end hend, programAt_end hend]

theorem Reads.closed (hc : c.Closed) (h : Reads depth c read errors stop) : stop.Closed := by
  induction h with
  | nil => exact hc
  | cons hend hrun _ ih => exact ih (declaration_takes hc hend hrun).1

theorem errors_start_programAt (hc : c.Closed) (hend : c.atEnd = false) :
    (declaration depth c).errors <+: (programAt depth c).errors := by
  cases hrun : declaration depth c with
  | done first next errors =>
    rw [programAt_done hc hend hrun]
    exact List.prefix_append ..
  | tooDeep next errors =>
    rw [programAt_tooDeep hend hrun]
    exact List.prefix_append ..

theorem Strikes.programAt_eq {reported : List SyntaxError} {place : Cursor} (hc : c.Closed)
    (h : Strikes depth c read reported place) :
    programAt depth c =
      ⟨read, reported ++ [⟨place.peek, .nestedTooDeeply⟩], place.rest⟩ := by
  obtain ⟨hreads, hend, hrun⟩ := h
  rw [hreads.programAt_eq hc, programAt_tooDeep hend hrun, List.append_nil, List.append_assoc]

/-- Up to there, the parse to a larger depth is the same. -/
theorem Strikes.starts {reported : List SyntaxError} {place : Cursor} (hc : c.Closed)
    (hdepth : depth ≤ depth') (h : Strikes depth c read reported place) :
    read <+: (programAt depth' c).statements ∧ reported <+: (programAt depth' c).errors := by
  obtain @⟨stop, _, _, errors, more, hreads, hend, hrun⟩ := h
  rw [(hreads.mono hdepth).programAt_eq hc]
  have hmore : more <+: (declaration depth' stop).errors :=
    (truncatesAt hdepth).declaration.errors_of_tooDeep hrun
  exact ⟨List.prefix_append .., (List.prefix_append_right_inj errors).2
    (hmore.trans (errors_start_programAt (hreads.closed hc) hend))⟩

theorem not_strikes {reported : List SyntaxError} {place : Cursor} (hc : c.Closed)
    (hdepth : 10 * c.rest.length + 12 ≤ depth) : ¬Strikes depth c read reported place := by
  intro h
  have hshallow : Shallow (programAt depth c).errors := programFrom_fits hc hdepth
  rw [h.programAt_eq hc] at hshallow
  exact hshallow ⟨place.peek, .nestedTooDeeply⟩ (by simp) rfl

theorem programAt_eq_of_not_strikes (hc : c.Closed)
    (h : ¬∃ read reported place, Strikes depth c read reported place)
    (h' : ¬∃ read reported place, Strikes depth' c read reported place) :
    programAt depth c = programAt depth' c := by
  obtain ⟨_, _, _, hreads, hend⟩ := (exists_reads depth hc).resolve_right h
  obtain ⟨_, _, _, hreads', hend'⟩ := (exists_reads depth' hc).resolve_right h'
  obtain hle | hle := Nat.le_total depth depth'
  · exact hreads.programAt_mono hc hle hend
  · exact (hreads'.programAt_mono hc hle hend').symm

theorem Reads.unread_eq (hc : c.Closed) (h : Reads depth c read errors stop)
    (hend : stop.atEnd = true) : (programAt depth c).unread = [] := by
  rw [h.programAt_eq hc, programAt_end hend]

end Grammar

namespace Row

open Grammar

variable {row : Row} {depth : Nat} {c stop place : Cursor} {read : List Node}
  {reported : List SyntaxError}

def start (row : Row) : Cursor := ⟨row.tokens, row.last⟩

theorem lt_size_of_atEnd {i : Nat} (h : (row.cursor i).atEnd = false) : i < row.size := by
  have hlength := row.length_rest i
  have hpos : 0 < (row.cursor i).rest.length :=
    List.length_pos_iff.2 (by simpa [Cursor.atEnd] using h)
  omega

theorem agrees_declaration (row : Row) (depth : Nat) {i : Nat} (hi : i < row.size) :
    row.Agrees i ((madeAt depth).declaration.walk row.all (row.size + 1) i)
      (declaration depth (row.cursor i)) :=
  follows_walk (madeAt depth).declaration (Nat.lt_of_le_of_lt i.zero_le hi)
    (Nat.lt_succ_self _) i (Nat.le_of_lt hi)

theorem exists_stop (h : Reads depth c read reported stop) {i : Nat} (hc : c = row.cursor i)
    (hi : i ≤ row.size) : ∃ k ≤ row.size, stop = row.cursor k := by
  induction h generalizing i with
  | nil => exact ⟨i, hi, hc⟩
  | cons hend hrun _ ih =>
    subst hc
    obtain ⟨k, hk, hnext, -⟩ :=
      Agrees.of_done (hrun ▸ row.agrees_declaration depth (lt_size_of_atEnd hend))
    exact ih hnext hk

theorem exists_place (h : Strikes depth row.start read reported place) :
    ∃ k ≤ row.size, place = row.cursor k := by
  obtain ⟨hreads, hend, hrun⟩ := h
  obtain ⟨i, -, rfl⟩ := exists_stop hreads (i := 0) rfl (Nat.zero_le _)
  obtain ⟨k, hk, hplace, -⟩ :=
    Agrees.of_tooDeep (hrun ▸ row.agrees_declaration depth (lt_size_of_atEnd hend))
  exact ⟨i + k, hk, hplace⟩

/-- A bound on the nesting only cuts a parse short. The parse that no bound cuts short is the one
to every large depth. To any depth, if the bound is not hit in any declaration, the parse is that
one. If it is, the parse keeps the declarations that were finished before, which begin the whole
program, and reports what it has found until then, with which the errors of the whole program
begin. Last comes the one error that the nesting is too deep, at the token of the row where the
bound was hit, and nothing is read from there on. -/
theorem depth_truncates (row : Row) : ∃ full : Parse,
    Shallow full.errors ∧ full.unread = [] ∧
    (∀ depth ≥ 10 * row.size + 12, parse depth row.tokens row.last = full) ∧
    ∀ depth,
      ((¬∃ read reported place, Strikes depth row.start read reported place) →
        parse depth row.tokens row.last = full) ∧
      ∀ read reported place, Strikes depth row.start read reported place →
        parse depth row.tokens row.last =
            ⟨read, reported ++ [⟨place.peek, .nestedTooDeeply⟩], place.rest⟩ ∧
          (∃ k ≤ row.size, place = row.cursor k) ∧
          read <+: full.statements ∧ reported <+: full.errors := by
  have hc : row.start.Closed := row.ends
  let deep := 10 * row.size + 12
  have hlarge {depth : Nat} (hdepth : deep ≤ depth) :
      ¬∃ read reported place, Strikes depth row.start read reported place :=
    fun ⟨_, _, _, hstrikes⟩ => not_strikes hc hdepth hstrikes
  have hdeep := hlarge (Nat.le_refl deep)
  have hfull {depth : Nat}
      (h : ¬∃ read reported place, Strikes depth row.start read reported place) :
      parse depth row.tokens row.last = programAt deep row.start :=
    programAt_eq_of_not_strikes hc h hdeep
  refine ⟨programAt deep row.start, programFrom_fits hc (Nat.le_refl _), ?_,
    fun depth hdepth => hfull (hlarge hdepth), fun depth => ⟨hfull, ?_⟩⟩
  · obtain ⟨_, _, _, hreads, hend⟩ := (exists_reads deep hc).resolve_right hdeep
    exact hreads.unread_eq hc hend
  · intro read reported place hstrikes
    have hdepth : depth ≤ deep := Nat.le_of_not_le fun hle => not_strikes hc hle hstrikes
    exact ⟨hstrikes.programAt_eq hc, exists_place hstrikes, hstrikes.starts hc hdepth⟩

/-- The bound is hit inside of a block, after a declaration and an error. -/
theorem depth_truncates_block :
    let scanned := scan "var a = 0; \x7b print 1 2; print ((3)); \x7d print 4;".toList
    ∃ row : Row, row.tokens = scanned.tokens ∧ row.last = scanned.endToken ∧
      ∃ read reported place full,
        Strikes 20 row.start read reported place ∧ read.length = 1 ∧ reported.length = 1 ∧
        parse 20 row.tokens row.last =
          ⟨read, reported ++ [⟨place.peek, .nestedTooDeeply⟩], place.rest⟩ ∧
        parse 232 row.tokens row.last = full ∧ full.statements.length = 3 ∧
        read <+: full.statements ∧ reported <+: full.errors := by
  intro scanned
  let row : Row := ⟨scanned.tokens, scanned.endToken, rfl, by decide +kernel⟩
  obtain ⟨full, -, -, hfull, hbounded⟩ := depth_truncates row
  have hparsed := hfull 232 (by decide +kernel)
  have hread : (parse 20 row.tokens row.last).statements.length = 1 := by decide +kernel
  have hreported : (parse 20 row.tokens row.last).errors.length = 2 := by decide +kernel
  have hlength : (parse 232 row.tokens row.last).statements.length = 3 := by decide +kernel
  rw [hparsed] at hlength
  obtain ⟨read, reported, place, hstrikes⟩ :
      ∃ read reported place, Strikes 20 row.start read reported place := by
    refine Classical.byContradiction fun h => ?_
    rw [(hbounded 20).1 h, hlength] at hread
    cases hread
  obtain ⟨hparse, -, hstatements, herrors⟩ := (hbounded 20).2 _ _ _ hstrikes
  rw [hparse] at hread hreported
  exact ⟨row, rfl, rfl, read, reported, place, full, hstrikes, hread, by simpa using hreported,
    hparse, hparsed, hlength, hstatements, herrors⟩

end Row

end Lox
