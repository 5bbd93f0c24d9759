import Lox.Node.Load
import Lox.Node.Record
import Lox.Proofs.Datum.Roundtrip
import Lox.Proofs.Tree.Proper

/-!
Trees as data and back. A tree is read back from its own record, with its tokens in their places
in the record. If its tokens say all there is to know about them, it is the very same tree, and
the trees of source text are such trees: their tokens were scanned, or stand in for one that was
left out.
-/
namespace Lox

/-- The literal of a number token is its number or left out. -/
def Token.Loadable (t : Token) : Prop :=
  t.kind = .number → t.literal = .null ∨ ∃ x, t.literal = .num x

/-- A token that its data says all about. -/
structure Token.Portable (t : Token) : Prop where
  number : t.Loadable
  shared : t.literal.isShared = true
  place : t.place = []

/-- The token as it stands in a record. -/
def Token.placed (place : Place) (t : Token) : Token :=
  { t with place := if t.literal.isShared then [] else place }

theorem Token.Portable.placed_eq {t : Token} (h : t.Portable) (place : Place) :
    t.placed place = t := by
  rw [Token.placed, if_pos h.shared, ← h.place]

structure Token.Writable (digits : Nat) (t : Token) : Prop where
  lexeme : t.lexeme.Writable digits
  line : t.line.Writable digits
  literal : t.literal.Writable digits

@[simp] theorem Datum.field?_cons_self {α : Type} (key : String) (value : α) (r : List (Text × α)) :
    field? ((Text.plain key, value) :: r) key = some value := by
  simp [field?]

@[simp] theorem Datum.field?_cons_ne {α : Type} {key other : String} (h : key ≠ other) (value : α)
    (r : List (Text × α)) : field? ((Text.plain other, value) :: r) key = field? r key := by
  have hne : (Text.plain key == Text.plain other) = false := beq_false_of_ne (by simpa using h)
  rw [field?, List.lookup_cons, hne]
  rfl

theorem Token.Loadable.toLiteral_self {t : Token} (h : t.Loadable) :
    toLiteral t.kind t.literal = .ok t.literal := by
  by_cases hkind : t.kind = .number
  · rcases h hkind with hnull | ⟨x, hx⟩
    · rw [hkind, hnull]
      rfl
    · rw [hkind, hx]
      rfl
  · unfold toLiteral
    split
    · exact absurd ‹t.kind = .number› hkind
    · exact absurd ‹t.kind = .number› hkind
    · rfl

theorem Token.ofDatum_toDatum {t : Token} (h : t.Loadable) (place : Place) :
    ofDatum place t.toDatum = .ok (t.placed place) := by
  have hkind : toKind (.str t.kind.name) = .ok t.kind := by
    simp [toKind, Text.string?, Kind.ofName?_name]
  have hliteral := h.toLiteral_self
  unfold toDatum ofDatum
  simp [demandField, hkind, hliteral, placed, bind, Except.bind, pure, Except.pure]

variable {digits : Nat}

theorem Token.writable_toDatum {t : Token} (h : t.Writable digits) : t.toDatum.Writable digits :=
  ⟨⟨rfl, rfl, rfl, h.lexeme, rfl, h.line, rfl, h.literal, trivial⟩, by simp⟩

theorem Token.writable_map {ts : List Token} (h : ∀ t ∈ ts, t.Writable digits) :
    Datum.WritableItems digits (ts.map toDatum) := by
  induction ts with
  | nil => trivial
  | cons t ts ih => exact ⟨writable_toDatum (h t (by simp)), ih fun u hu => h u (by simp [hu])⟩

theorem Token.mapM_ofDatum {ts : List Token} (h : ∀ t ∈ ts, t.Loadable) (place : Place) :
    (ts.map toDatum).mapM (ofDatum place) = .ok (ts.map (placed place)) := by
  induction ts with
  | nil => rfl
  | cons t ts ih =>
    have ht := ofDatum_toDatum (h t (by simp)) place
    have hts := ih fun u hu => h u (by simp [hu])
    rw [List.map_cons, List.mapM_cons, ht, hts]
    rfl

namespace Node

mutual

def All (p : Token → Prop) : Node → Prop
  | .literal t | .name t => p t
  | .grouping n | .expression n | .print n => All p n
  | .unary t n | .assign t n | .var t n => p t ∧ All p n
  | .binary l t r | .logical l t r => All p l ∧ p t ∧ All p r
  | .call callee t args => All p callee ∧ p t ∧ AllItems p args
  | .block items | .list items => AllItems p items
  | .ifElse a b c => All p a ∧ All p b ∧ All p c
  | .loop a b => All p a ∧ All p b
  | .function t params body => p t ∧ (∀ q ∈ params, p q) ∧ AllItems p body

def AllItems (p : Token → Prop) : List Node → Prop
  | [] => True
  | n :: r => All p n ∧ AllItems p r

end

mutual

theorem all_mono {p q : Token → Prop} (hpq : ∀ t, p t → q t) : ∀ n : Node, n.All p → n.All q
  | .literal _, h | .name _, h => hpq _ h
  | .grouping a, h | .expression a, h | .print a, h => all_mono hpq a h
  | .unary _ a, ⟨ht, h⟩ | .assign _ a, ⟨ht, h⟩ | .var _ a, ⟨ht, h⟩ => ⟨hpq _ ht, all_mono hpq a h⟩
  | .binary a _ b, ⟨ha, ht, hb⟩ | .logical a _ b, ⟨ha, ht, hb⟩ =>
    ⟨all_mono hpq a ha, hpq _ ht, all_mono hpq b hb⟩
  | .call a _ args, ⟨ha, ht, hargs⟩ => ⟨all_mono hpq a ha, hpq _ ht, allItems_mono hpq args hargs⟩
  | .block items, h | .list items, h => allItems_mono hpq items h
  | .ifElse a b c, ⟨ha, hb, hc⟩ => ⟨all_mono hpq a ha, all_mono hpq b hb, all_mono hpq c hc⟩
  | .loop a b, ⟨ha, hb⟩ => ⟨all_mono hpq a ha, all_mono hpq b hb⟩
  | .function _ _ body, ⟨ht, hparams, hbody⟩ =>
    ⟨hpq _ ht, fun t h => hpq t (hparams t h), allItems_mono hpq body hbody⟩

theorem allItems_mono {p q : Token → Prop} (hpq : ∀ t, p t → q t) :
    ∀ ns : List Node, AllItems p ns → AllItems q ns
  | [], _ => trivial
  | n :: r, h => ⟨all_mono hpq n h.1, allItems_mono hpq r h.2⟩

end

mutual

/-- The tree as it stands in its record: every token knows its place, as far as that counts. -/
def placed (place : Place) : Node → Node
  | .literal t => .literal (t.placed (.field "value" :: place))
  | .grouping a => .grouping (placed (.field "expression" :: place) a)
  | .unary t a =>
    .unary (t.placed (.field "operator" :: place)) (placed (.field "right" :: place) a)
  | .binary a t b =>
    .binary (placed (.field "left" :: place) a) (t.placed (.field "operator" :: place))
      (placed (.field "right" :: place) b)
  | .logical a t b =>
    .logical (placed (.field "left" :: place) a) (t.placed (.field "operator" :: place))
      (placed (.field "right" :: place) b)
  | .name t => .name (t.placed (.field "name" :: place))
  | .assign t a => .assign (t.placed (.field "name" :: place)) (placed (.field "value" :: place) a)
  | .call a t args =>
    .call (placed (.field "callee" :: place) a) (t.placed (.field "paren" :: place))
      (placedFrom (.field "arguments" :: place) 0 args)
  | .expression a => .expression (placed (.field "expression" :: place) a)
  | .print a => .print (placed (.field "expression" :: place) a)
  | .var t a =>
    .var (t.placed (.field "name" :: place)) (placed (.field "initializer" :: place) a)
  | .block items => .block (placedFrom (.field "statements" :: place) 0 items)
  | .ifElse a b c =>
    .ifElse (placed (.field "condition" :: place) a) (placed (.field "then_branch" :: place) b)
      (placed (.field "else_branch" :: place) c)
  | .loop a b => .loop (placed (.field "condition" :: place) a) (placed (.field "body" :: place) b)
  | .function t params body =>
    .function (t.placed (.field "name" :: place))
      (params.map (Token.placed (.field "params" :: place)))
      (placedFrom (.field "body" :: place) 0 body)
  | .list items => .list (placedFrom place 0 items)

def placedFrom (place : Place) (index : Nat) : List Node → List Node
  | [] => []
  | n :: r => placed (.item index :: place) n :: placedFrom place (index + 1) r

end

mutual

theorem placed_eq : ∀ (n : Node) (place : Place), n.All Token.Portable → n.placed place = n
  | .literal _, _, h | .name _, _, h => by rw [placed, Token.Portable.placed_eq h]
  | .grouping a, _, h => by rw [placed, placed_eq a _ h]
  | .unary _ a, _, ⟨ht, h⟩ => by rw [placed, ht.placed_eq, placed_eq a _ h]
  | .binary a _ b, _, ⟨ha, ht, hb⟩ => by
    rw [placed, placed_eq a _ ha, ht.placed_eq, placed_eq b _ hb]
  | .logical a _ b, _, ⟨ha, ht, hb⟩ => by
    rw [placed, placed_eq a _ ha, ht.placed_eq, placed_eq b _ hb]
  | .assign _ a, _, ⟨ht, h⟩ => by rw [placed, ht.placed_eq, placed_eq a _ h]
  | .call a _ args, _, ⟨ha, ht, hargs⟩ => by
    rw [placed, placed_eq a _ ha, ht.placed_eq, placedFrom_eq args _ _ hargs]
  | .expression a, _, h => by rw [placed, placed_eq a _ h]
  | .print a, _, h => by rw [placed, placed_eq a _ h]
  | .var _ a, _, ⟨ht, h⟩ => by rw [placed, ht.placed_eq, placed_eq a _ h]
  | .block items, _, h => by rw [placed, placedFrom_eq items _ _ h]
  | .ifElse a b c, _, ⟨ha, hb, hc⟩ => by
    rw [placed, placed_eq a _ ha, placed_eq b _ hb, placed_eq c _ hc]
  | .loop a b, _, ⟨ha, hb⟩ => by rw [placed, placed_eq a _ ha, placed_eq b _ hb]
  | .function _ params body, _, ⟨ht, hparams, hbody⟩ => by
    rw [placed, ht.placed_eq, List.map_congr_left fun t h => (hparams t h).placed_eq _, List.map_id',
      placedFrom_eq body _ _ hbody]
  | .list items, _, h => by rw [placed, placedFrom_eq items _ _ h]

theorem placedFrom_eq : ∀ (items : List Node) (place : Place) (index : Nat),
    AllItems Token.Portable items → placedFrom place index items = items
  | [], _, _, _ => rfl
  | n :: r, _, _, h => by rw [placedFrom, placed_eq n _ h.1, placedFrom_eq r _ _ h.2]

end

theorem formOf_record (form : Form) (parts : List (Text × Datum)) :
    formOf ((("type" : Text), .str form.title) :: parts) = .ok form := by
  simp [formOf, Text.string?, Form.ofTitle?_title]

theorem loadAt_record (place : Place) (form : Form) (parts : List (Text × Datum)) :
    loadAt place (record form parts) =
      (partsOf place ((("type" : Text), .str form.title) :: parts)).assemble form := by
  rw [record, loadAt, formOf_record]
  rfl

end Node

namespace Parts

variable {key other : String} {part : Part} {r : Parts}

@[simp] theorem node_cons_self : node ((Text.plain key, part) :: r) key = part.node := by
  simp only [node, demandField, Datum.field?_cons_self]
  rfl

@[simp] theorem node_cons_ne (h : key ≠ other) :
    node ((Text.plain other, part) :: r) key = node r key := by
  simp only [node, demandField, Datum.field?_cons_ne h]

@[simp] theorem token_cons_self :
    token ((Text.plain key, part) :: r) key = Token.ofDatum part.place part.datum := by
  simp only [token, demandField, Datum.field?_cons_self]
  rfl

@[simp] theorem token_cons_ne (h : key ≠ other) :
    token ((Text.plain other, part) :: r) key = token r key := by
  simp only [token, demandField, Datum.field?_cons_ne h]

@[simp] theorem nodes_cons_self : nodes ((Text.plain key, part) :: r) key = part.nodes := by
  simp only [nodes, Datum.field?_cons_self]

@[simp] theorem nodes_cons_ne (h : key ≠ other) :
    nodes ((Text.plain other, part) :: r) key = nodes r key := by
  simp only [nodes, Datum.field?_cons_ne h]

@[simp] theorem tokens_cons_self :
    tokens ((Text.plain key, part) :: r) key = Token.listOfDatum part.place part.datum := by
  simp only [tokens, Datum.field?_cons_self]

@[simp] theorem tokens_cons_ne (h : key ≠ other) :
    tokens ((Text.plain other, part) :: r) key = tokens r key := by
  simp only [tokens, Datum.field?_cons_ne h]

end Parts

namespace Node

theorem nodes_list {place : Place} {items loaded : List Node}
    (h : loadItems place 0 (toData items) = .ok loaded) :
    Part.nodes ⟨place, .list (toData items), loadAt place (.list (toData items))⟩ =
      .ok loaded := by
  rw [Part.nodes, loadAt, h]
  rfl

mutual

theorem loadAt_toDatum : ∀ (n : Node) (place : Place), n.All Token.Loadable →
    loadAt place n.toDatum = .ok (n.placed place)
  | .literal t, place, h => by
    have ht := Token.ofDatum_toDatum (show t.Loadable from h)
    rw [toDatum, loadAt_record]
    simp [partsOf, placed, Parts.assemble, ht]
  | .grouping a, place, h => by
    have ha := fun place => loadAt_toDatum a place h
    rw [toDatum, loadAt_record]
    simp [partsOf, placed, Parts.assemble, ha]
  | .unary t a, place, h => by
    have ht := Token.ofDatum_toDatum h.1
    have ha := fun place => loadAt_toDatum a place h.2
    rw [toDatum, loadAt_record]
    simp [partsOf, placed, Parts.assemble, ht, ha, bind, Except.bind, pure, Except.pure]
  | .binary a t b, place, h => by
    have ha := fun place => loadAt_toDatum a place h.1
    have ht := Token.ofDatum_toDatum h.2.1
    have hb := fun place => loadAt_toDatum b place h.2.2
    rw [toDatum, loadAt_record]
    simp [partsOf, placed, Parts.assemble, ha, ht, hb, bind, Except.bind, pure, Except.pure]
  | .logical a t b, place, h => by
    have ha := fun place => loadAt_toDatum a place h.1
    have ht := Token.ofDatum_toDatum h.2.1
    have hb := fun place => loadAt_toDatum b place h.2.2
    rw [toDatum, loadAt_record]
    simp [partsOf, placed, Parts.assemble, ha, ht, hb, bind, Except.bind, pure, Except.pure]
  | .name t, place, h => by
    have ht := Token.ofDatum_toDatum (show t.Loadable from h)
    rw [toDatum, loadAt_record]
    simp [partsOf, placed, Parts.assemble, ht]
  | .assign t a, place, h => by
    have ht := Token.ofDatum_toDatum h.1
    have ha := fun place => loadAt_toDatum a place h.2
    rw [toDatum, loadAt_record]
    simp [partsOf, placed, Parts.assemble, ht, ha, bind, Except.bind, pure, Except.pure]
  | .call a t args, place, h => by
    have ha := fun place => loadAt_toDatum a place h.1
    have ht := Token.ofDatum_toDatum h.2.1
    have hargs := nodes_list (loadItems_toData args (.field "arguments" :: place) 0 h.2.2)
    rw [toDatum, loadAt_record]
    simp [partsOf, placed, Parts.assemble, ha, ht, hargs, bind, Except.bind, pure, Except.pure]
  | .expression a, place, h => by
    have ha := fun place => loadAt_toDatum a place h
    rw [toDatum, loadAt_record]
    simp [partsOf, placed, Parts.assemble, ha]
  | .print a, place, h => by
    have ha := fun place => loadAt_toDatum a place h
    rw [toDatum, loadAt_record]
    simp [partsOf, placed, Parts.assemble, ha]
  | .var t a, place, h => by
    have ht := Token.ofDatum_toDatum h.1
    have ha := fun place => loadAt_toDatum a place h.2
    rw [toDatum, loadAt_record]
    simp [partsOf, placed, Parts.assemble, ht, ha, bind, Except.bind, pure, Except.pure]
  | .block items, place, h => by
    have hitems := nodes_list (loadItems_toData items (.field "statements" :: place) 0 h)
    rw [toDatum, loadAt_record]
    simp [partsOf, placed, Parts.assemble, hitems]
  | .ifElse a b c, place, h => by
    have ha := fun place => loadAt_toDatum a place h.1
    have hb := fun place => loadAt_toDatum b place h.2.1
    have hc := fun place => loadAt_toDatum c place h.2.2
    rw [toDatum, loadAt_record]
    simp [partsOf, placed, Parts.assemble, ha, hb, hc, bind, Except.bind, pure, Except.pure]
  | .loop a b, place, h => by
    have ha := fun place => loadAt_toDatum a place h.1
    have hb := fun place => loadAt_toDatum b place h.2
    rw [toDatum, loadAt_record]
    simp [partsOf, placed, Parts.assemble, ha, hb, bind, Except.bind, pure, Except.pure]
  | .function t params body, place, h => by
    have ht := Token.ofDatum_toDatum h.1
    have hparams := Token.mapM_ofDatum h.2.1
    have hbody := nodes_list (loadItems_toData body (.field "body" :: place) 0 h.2.2)
    rw [toDatum, loadAt_record]
    simp [partsOf, placed, Parts.assemble, ht, hparams, hbody, Token.listOfDatum, bind, Except.bind, pure,
      Except.pure]
  | .list items, place, h => by
    rw [toDatum, loadAt, loadItems_toData items place 0 h]
    rfl

theorem loadItems_toData : ∀ (items : List Node) (place : Place) (index : Nat),
    AllItems Token.Loadable items →
      loadItems place index (toData items) = .ok (placedFrom place index items)
  | [], place, index, _ => rfl
  | n :: r, place, index, h => by
    rw [toData, loadItems, loadAt_toDatum n _ h.1, loadItems_toData r place (index + 1) h.2]
    rfl

end

/-- A tree that its record says all about is read back from it. -/
theorem ofDatum_toDatum {n : Node} (h : n.All Token.Portable) : ofDatum n.toDatum = .ok n := by
  rw [ofDatum, loadAt_toDatum n [] (all_mono (fun _ ht => ht.number) n h), placed_eq n [] h]

theorem writable_record (form : Form) {parts : List (Text × Datum)}
    (hparts : Datum.WritableFields digits parts)
    (hnames : ("type" :: parts.map Prod.fst : List Text).Nodup) :
    (record form parts).Writable digits :=
  ⟨⟨rfl, rfl, hparts⟩, hnames⟩

mutual

theorem writable_toDatum : ∀ n : Node, n.All (Token.Writable digits) → n.toDatum.Writable digits
  | .literal t, h => by
    rw [toDatum]
    exact writable_record _ ⟨rfl, Token.writable_toDatum h, trivial⟩ (by simp)
  | .grouping a, h => by
    rw [toDatum]
    exact writable_record _ ⟨rfl, writable_toDatum a h, trivial⟩ (by simp)
  | .unary t a, ⟨ht, ha⟩ => by
    rw [toDatum]
    exact writable_record _ ⟨rfl, Token.writable_toDatum ht, rfl, writable_toDatum a ha,
      trivial⟩ (by simp)
  | .binary a t b, ⟨ha, ht, hb⟩ => by
    rw [toDatum]
    exact writable_record _ ⟨rfl, writable_toDatum a ha, rfl, Token.writable_toDatum ht, rfl,
      writable_toDatum b hb, trivial⟩ (by simp)
  | .logical a t b, ⟨ha, ht, hb⟩ => by
    rw [toDatum]
    exact writable_record _ ⟨rfl, writable_toDatum a ha, rfl, Token.writable_toDatum ht, rfl,
      writable_toDatum b hb, trivial⟩ (by simp)
  | .name t, h => by
    rw [toDatum]
    exact writable_record _ ⟨rfl, Token.writable_toDatum h, trivial⟩ (by simp)
  | .assign t a, ⟨ht, ha⟩ => by
    rw [toDatum]
    exact writable_record _ ⟨rfl, Token.writable_toDatum ht, rfl, writable_toDatum a ha,
      trivial⟩ (by simp)
  | .call a t args, ⟨ha, ht, hargs⟩ => by
    rw [toDatum]
    exact writable_record _ ⟨rfl, writable_toDatum a ha, rfl, Token.writable_toDatum ht, rfl,
      writable_toData args hargs, trivial⟩ (by simp)
  | .expression a, h => by
    rw [toDatum]
    exact writable_record _ ⟨rfl, writable_toDatum a h, trivial⟩ (by simp)
  | .print a, h => by
    rw [toDatum]
    exact writable_record _ ⟨rfl, writable_toDatum a h, trivial⟩ (by simp)
  | .var t a, ⟨ht, ha⟩ => by
    rw [toDatum]
    exact writable_record _ ⟨rfl, Token.writable_toDatum ht, rfl, writable_toDatum a ha,
      trivial⟩ (by simp)
  | .block items, h => by
    rw [toDatum]
    exact writable_record _ ⟨rfl, writable_toData items h, trivial⟩ (by simp)
  | .ifElse a b c, ⟨ha, hb, hc⟩ => by
    rw [toDatum]
    exact writable_record _ ⟨rfl, writable_toDatum a ha, rfl, writable_toDatum b hb, rfl,
      writable_toDatum c hc, trivial⟩ (by simp)
  | .loop a b, ⟨ha, hb⟩ => by
    rw [toDatum]
    exact writable_record _ ⟨rfl, writable_toDatum a ha, rfl, writable_toDatum b hb,
      trivial⟩ (by simp)
  | .function t params body, ⟨ht, hparams, hbody⟩ => by
    rw [toDatum]
    exact writable_record _ ⟨rfl, Token.writable_toDatum ht, rfl, Token.writable_map hparams, rfl,
      writable_toData body hbody, trivial⟩ (by simp)
  | .list items, h => by
    rw [toDatum]
    exact writable_toData items h

theorem writable_toData : ∀ items : List Node, AllItems (Token.Writable digits) items →
    Datum.WritableItems digits (toData items)
  | [], _ => trivial
  | n :: r, h => ⟨writable_toDatum n h.1, writable_toData r h.2⟩

end

end Node

namespace Grammar

theorem Level.all_join {p : Token → Prop} {level : Level} {operator : Token} {left right : Node}
    (hleft : left.All p) (ho : p operator) (hright : right.All p) :
    (level.join left operator right).All p := by
  cases level <;> exact ⟨hleft, ho, hright⟩

theorem Phrase.all {p : Token → Prop} {nearest : Bool} {s : Symbol} {ts : List Token} {n : Node}
    (h : Phrase nearest s ts n) (hts : ∀ t ∈ ts, p t)
    (hnil : ∀ t, p t → p (.implied .kwNil "nil" t.line))
    (htrue : ∀ t, p t → p (.implied .kwTrue "true" t.line)) : n.All p := by
  induction h with
  | literal => exact hts _ (by simp)
  | name => exact hts _ (by simp)
  | grouping _ _ _ ih => exact ih fun t ht => hts t (by simp [ht])
  | callee _ ih | called _ ih | operand _ ih | value _ ih | boundInitializer _ ih
  | simpleInitializer _ ih | plain _ ih | bound _ ih | statement _ ih => exact ih hts
  | callNone _ _ _ ih => exact ⟨ih fun t ht => hts t (by simp [ht]), hts _ (by simp), trivial⟩
  | callSome _ _ _ _ _ ihc iha =>
    exact ⟨ihc fun t ht => hts t (by simp [ht]), hts _ (by simp),
      iha fun t ht => hts t (by simp [ht])⟩
  | negated _ _ ih => exact ⟨hts _ (by simp), ih fun t ht => hts t (by simp [ht])⟩
  | joined _ _ _ ihl ihr =>
    exact Level.all_join (ihl fun t ht => hts t (by simp [ht])) (hts _ (by simp))
      (ihr fun t ht => hts t (by simp [ht]))
  | assigned _ _ _ ih => exact ⟨hts _ (by simp), ih fun t ht => hts t (by simp [ht])⟩
  | lastArgument _ ih => exact ⟨ih hts, trivial⟩
  | moreArguments _ _ _ ihe iha =>
    exact ⟨ihe fun t ht => hts t (by simp [ht]), iha fun t ht => hts t (by simp [ht])⟩
  | @unset _ target _ =>
    have htarget := hts target (by simp)
    exact ⟨htarget, hnil target htarget⟩
  | set _ _ _ _ _ ih => exact ⟨hts _ (by simp), ih fun t ht => hts t (by simp [ht])⟩
  | simple _ _ ih => exact ih fun t ht => hts t (by simp [ht])
  | noInitializer => trivial
  | @noCondition semi => exact htrue semi (hts _ (by simp))
  | someCondition _ _ ih => exact ih fun t ht => hts t (by simp [ht])
  | @noIncrement r => exact hnil r (hts _ (by simp))
  | someIncrement _ _ ih => exact ih fun t ht => hts t (by simp [ht])
  | print _ _ _ ih => exact ih fun t ht => hts t (by simp [ht])
  | block _ _ _ ih => exact ih fun t ht => hts t (by simp [ht])
  | loop _ _ _ _ _ ihc ihb =>
    exact ⟨ihc fun t ht => hts t (by simp [ht]), ihb fun t ht => hts t (by simp [ht])⟩
  | counted _ _ _ _ _ _ ihi ihc ihn ihb =>
    have hi := ihi fun t ht => hts t (by simp [ht])
    have hc := ihc fun t ht => hts t (by simp [ht])
    have hn := ihn fun t ht => hts t (by simp [ht])
    have hb := ihb fun t ht => hts t (by simp [ht])
    exact ⟨hi, ⟨hc, hb, hn, trivial⟩, trivial⟩
  | ifOnly _ _ _ _ _ ihc iht =>
    exact ⟨ihc fun t ht => hts t (by simp [ht]), iht fun t ht => hts t (by simp [ht]), trivial⟩
  | ifElse _ _ _ _ _ _ _ _ ihc iht ihe =>
    exact ⟨ihc fun t ht => hts t (by simp [ht]), iht fun t ht => hts t (by simp [ht]),
      ihe fun t ht => hts t (by simp [ht])⟩
  | function _ _ _ hp _ _ _ _ _ ih =>
    refine ⟨hts _ (by simp), fun q hq => hts q ?_, ih fun t ht => hts t (by simp [ht])⟩
    simp [hp.mem q hq]
  | none => trivial
  | more _ _ ihd ihr =>
    exact ⟨ihd fun t ht => hts t (by simp [ht]), ihr fun t ht => hts t (by simp [ht])⟩

end Grammar

theorem Lexeme.portable_token (l : Lexeme) : l.token.Portable where
  number := by
    intro hkind
    right
    refine ⟨numberValue l.text, ?_⟩
    simp only [Lexeme.token] at hkind ⊢
    rw [hkind, Lexeme.literal]
  shared := by
    unfold Lexeme.token Lexeme.literal
    split <;> rfl
  place := rfl

theorem Lexeme.writable_token {l : Lexeme} (h : l.line < 10 ^ (digits + 1)) :
    l.token.Writable (digits + 1) where
  lexeme := rfl
  line := length_natDigits_le h
  literal := by
    unfold Lexeme.token Lexeme.literal
    split
    · rfl
    · rfl
    · exact Number.isNaN_ofDecimal _ _
    · trivial

theorem Token.portable_implied (kind : Kind) (lexeme : String) (line : Datum) :
    (implied kind lexeme line).Portable where
  number := fun _ => .inl rfl
  shared := rfl
  place := rfl

theorem Token.writable_implied (kind : Kind) (lexeme : String) {t : Token}
    (h : t.Writable digits) : (implied kind lexeme t.line).Writable digits where
  lexeme := rfl
  line := h.line
  literal := trivial

theorem program_portable {text : List Char} {statements : List Node}
    (h : program text = .ok statements) : (Node.list statements).All Token.Portable := by
  have hscanned : ∀ t ∈ (scan text).tokens, t.Portable := by
    intro t ht
    obtain ⟨l, rfl⟩ := Scan.exists_lexeme ht
    exact l.portable_token
  exact (program_denotes h).all hscanned
    (fun t _ => Token.portable_implied .kwNil "nil" t.line)
    (fun t _ => Token.portable_implied .kwTrue "true" t.line)

theorem Scan.line_le {pieces : List Piece} {line : Nat} {l : Lexeme}
    (h : l ∈ (ofPieces line pieces).lexemes) :
    l.line ≤ line + (pieces.flatMap Piece.text).count '\n' := by
  induction pieces generalizing line with
  | nil => cases h
  | cons p pieces ih =>
    rw [List.flatMap_cons, List.count_append]
    have hlater (h : l ∈ (ofPieces (line + p.text.count '\n') pieces).lexemes) := ih h
    unfold ofPieces add at h
    cases hform : p.form with
    | lexeme kind =>
      rw [hform] at h
      obtain rfl | h := List.mem_cons.1 h
      · exact Nat.add_le_add_left (Nat.le_add_right ..) line
      · have := hlater h
        omega
    | _ =>
      rw [hform] at h
      have := hlater h
      omega

/-- The record of a program can be written, and read back if its lines can be counted with that
many digits. -/
theorem program_writable {text : List Char} {statements : List Node}
    (h : program text = .ok statements) (hlines : text.count '\n' + 1 < 10 ^ digits) :
    (Node.list statements).All (Token.Writable digits) := by
  obtain ⟨k, rfl⟩ : ∃ k, digits = k + 1 := by
    refine Nat.exists_eq_succ_of_ne_zero fun hzero => ?_
    rw [hzero] at hlines
    omega
  have hscanned : ∀ t ∈ (scan text).tokens, t.Writable (k + 1) := by
    intro t ht
    obtain ⟨l, hl, rfl⟩ := List.mem_map.1 ht
    have hline := Scan.line_le hl
    rw [Piece.flatMap_text_all] at hline
    exact Lexeme.writable_token (by omega)
  exact (program_denotes h).all hscanned (fun t ht => Token.writable_implied .kwNil "nil" ht)
    (fun t ht => Token.writable_implied .kwTrue "true" ht)

end Lox
