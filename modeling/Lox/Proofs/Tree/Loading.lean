import Lox.Node.Equality
import Lox.Proofs.Tree.Record

/-!
What is loaded. Whatever data a tree was loaded from, with fields left out, fields too many, or
literals that had to be converted, its number tokens now have numbers or nothing for literals, and
its tokens know the very places that they have in the record of the tree. So loading the record
gives the same tree, and nothing is left to be made uniform.
-/
namespace Lox

section Steps

variable {ε α β : Type} {x : Except ε α} {f : α → Except ε β} {b : β}

theorem bind_eq_ok (h : x >>= f = .ok b) : ∃ a, x = .ok a ∧ f a = .ok b := by
  cases x with
  | error e => cases h
  | ok a => exact ⟨a, rfl, h⟩

theorem mapM_eq_ok {p : β → Prop} {g : α → Except ε β} (hg : ∀ a b, g a = .ok b → p b)
    {as : List α} {bs : List β} (h : as.mapM g = .ok bs) : ∀ b ∈ bs, p b := by
  induction as generalizing bs with
  | nil =>
    cases h
    simp
  | cons a as ih =>
    rw [List.mapM_cons] at h
    obtain ⟨b, hb, h⟩ := bind_eq_ok h
    obtain ⟨bs, hbs, h⟩ := bind_eq_ok h
    cases h
    rw [List.forall_mem_cons]
    exact ⟨hg a b hb, ih hbs⟩

end Steps

theorem Datum.mem_of_field? {α : Type} {fields : List (Text × α)} {key : String} {value : α}
    (h : field? fields key = some value) : (Text.plain key, value) ∈ fields := by
  obtain ⟨before, after, rfl, -⟩ := List.lookup_eq_some_iff.1 h
  simp

theorem demandField_eq_ok {α : Type} {key : String} {fields : List (Text × α)} {value : α}
    (h : demandField key fields = .ok value) : Datum.field? fields key = some value := by
  unfold demandField at h
  split at h
  · cases h
    assumption
  · cases h

namespace Token

/-- The token stands at a place just as it does in its record there. -/
structure Loaded (place : Place) (t : Token) : Prop where
  loadable : t.Loadable
  placed : t.placed place = t

theorem toLiteral_number {d literal : Datum} (h : toLiteral .number d = .ok literal) :
    literal = .null ∨ ∃ x, literal = .num x := by
  cases d with
  | null =>
    cases h
    exact .inl rfl
  | _ =>
    obtain ⟨x, -, h⟩ := bind_eq_ok h
    cases h
    exact .inr ⟨x, rfl⟩

theorem loaded_ofDatum {place : Place} {d : Datum} {t : Token} (h : ofDatum place d = .ok t) :
    t.Loaded place := by
  unfold ofDatum at h
  split at h
  · obtain ⟨type, -, h⟩ := bind_eq_ok h
    obtain ⟨kind, -, h⟩ := bind_eq_ok h
    obtain ⟨literal, hliteral, h⟩ := bind_eq_ok h
    obtain ⟨lexeme, -, h⟩ := bind_eq_ok h
    obtain ⟨line, -, h⟩ := bind_eq_ok h
    cases h
    refine ⟨fun hkind => ?_, rfl⟩
    cases hkind
    exact toLiteral_number hliteral
  · cases h

theorem loaded_listOfDatum {place : Place} {d : Datum} {ts : List Token}
    (h : listOfDatum place d = .ok ts) : ∀ t ∈ ts, t.Loaded place := by
  unfold listOfDatum at h
  split at h
  · exact mapM_eq_ok (fun _ _ => loaded_ofDatum) h
  · split at h <;> cases h
    simp
  · split at h <;> cases h
    simp
  · cases h

end Token

namespace Node

/-- The tree stands at a place just as it does in its record there. -/
structure Loaded (place : Place) (n : Node) : Prop where
  loadable : n.All Token.Loadable
  placed : n.placed place = n

structure LoadedFrom (place : Place) (index : Nat) (ns : List Node) : Prop where
  loadable : AllItems Token.Loadable ns
  placed : placedFrom place index ns = ns

end Node

def Parts.Loaded (place : Place) (parts : Parts) : Prop :=
  ∀ key part, (key, part) ∈ parts →
    part.place = .field key :: place ∧ ∀ n, part.node = .ok n → n.Loaded part.place

namespace Parts

variable {place : Place} {parts : Parts} {key : String}

theorem Loaded.node (h : parts.Loaded place) {n : Node} (hn : parts.node key = .ok n) :
    n.Loaded (.field key :: place) := by
  obtain ⟨part, hpart, hn⟩ := bind_eq_ok hn
  obtain ⟨hplace, hnode⟩ := h _ part (Datum.mem_of_field? (demandField_eq_ok hpart))
  rw [← hplace]
  exact hnode n hn

theorem Loaded.token (h : parts.Loaded place) {t : Token} (ht : parts.token key = .ok t) :
    t.Loaded (.field key :: place) := by
  obtain ⟨part, hpart, ht⟩ := bind_eq_ok ht
  obtain ⟨hplace, -⟩ := h _ part (Datum.mem_of_field? (demandField_eq_ok hpart))
  rw [← hplace]
  exact Token.loaded_ofDatum ht

theorem Loaded.nodes (h : parts.Loaded place) {ns : List Node} (hns : parts.nodes key = .ok ns) :
    Node.LoadedFrom (.field key :: place) 0 ns := by
  unfold Parts.nodes at hns
  split at hns
  · rename_i part hpart
    obtain ⟨hplace, hnode⟩ := h _ part (Datum.mem_of_field? hpart)
    rw [← hplace]
    unfold Part.nodes at hns
    split at hns
    · split at hns
      · rename_i items hitems
        cases hns
        obtain ⟨hloadable, hplaced⟩ := hnode _ hitems
        exact ⟨hloadable, Node.list.inj hplaced⟩
      · cases hns
      · cases hns
    · split at hns <;> cases hns
      exact ⟨trivial, rfl⟩
    · cases hns
      exact ⟨trivial, rfl⟩
    · cases hns
    · cases hns
  · cases hns
    exact ⟨trivial, rfl⟩

theorem Loaded.tokens (h : parts.Loaded place) {ts : List Token}
    (hts : parts.tokens key = .ok ts) : ∀ t ∈ ts, t.Loaded (.field key :: place) := by
  unfold Parts.tokens at hts
  split at hts
  · rename_i part hpart
    obtain ⟨hplace, -⟩ := h _ part (Datum.mem_of_field? hpart)
    rw [← hplace]
    exact Token.loaded_listOfDatum hts
  · cases hts
    simp

end Parts

namespace Node

theorem loaded_assemble {place : Place} {parts : Parts} {form : Form} {n : Node}
    (h : parts.Loaded place) (hn : parts.assemble form = .ok n) : n.Loaded place := by
  cases form with
  | literal | name =>
    obtain ⟨t, ht, hn⟩ := bind_eq_ok hn
    cases hn
    have ht := h.token ht
    exact ⟨ht.loadable, by rw [placed, ht.placed]⟩
  | grouping | expression | print =>
    obtain ⟨a, ha, hn⟩ := bind_eq_ok hn
    cases hn
    have ha := h.node ha
    exact ⟨ha.loadable, by rw [placed, ha.placed]⟩
  | unary | assign | var =>
    obtain ⟨t, ht, hn⟩ := bind_eq_ok hn
    obtain ⟨a, ha, hn⟩ := bind_eq_ok hn
    cases hn
    have ht := h.token ht
    have ha := h.node ha
    exact ⟨⟨ht.loadable, ha.loadable⟩, by rw [placed, ht.placed, ha.placed]⟩
  | binary | logical =>
    obtain ⟨a, ha, hn⟩ := bind_eq_ok hn
    obtain ⟨t, ht, hn⟩ := bind_eq_ok hn
    obtain ⟨b, hb, hn⟩ := bind_eq_ok hn
    cases hn
    have ha := h.node ha
    have ht := h.token ht
    have hb := h.node hb
    exact ⟨⟨ha.loadable, ht.loadable, hb.loadable⟩,
      by rw [placed, ha.placed, ht.placed, hb.placed]⟩
  | call =>
    obtain ⟨args, hargs, hn⟩ := bind_eq_ok hn
    obtain ⟨a, ha, hn⟩ := bind_eq_ok hn
    obtain ⟨t, ht, hn⟩ := bind_eq_ok hn
    cases hn
    have hargs := h.nodes hargs
    have ha := h.node ha
    have ht := h.token ht
    exact ⟨⟨ha.loadable, ht.loadable, hargs.loadable⟩,
      by rw [placed, ha.placed, ht.placed, hargs.placed]⟩
  | block =>
    obtain ⟨items, hitems, hn⟩ := bind_eq_ok hn
    cases hn
    have hitems := h.nodes hitems
    exact ⟨hitems.loadable, by rw [placed, hitems.placed]⟩
  | ifElse =>
    obtain ⟨a, ha, hn⟩ := bind_eq_ok hn
    obtain ⟨b, hb, hn⟩ := bind_eq_ok hn
    obtain ⟨c, hc, hn⟩ := bind_eq_ok hn
    cases hn
    have ha := h.node ha
    have hb := h.node hb
    have hc := h.node hc
    exact ⟨⟨ha.loadable, hb.loadable, hc.loadable⟩,
      by rw [placed, ha.placed, hb.placed, hc.placed]⟩
  | loop =>
    obtain ⟨a, ha, hn⟩ := bind_eq_ok hn
    obtain ⟨b, hb, hn⟩ := bind_eq_ok hn
    cases hn
    have ha := h.node ha
    have hb := h.node hb
    exact ⟨⟨ha.loadable, hb.loadable⟩, by rw [placed, ha.placed, hb.placed]⟩
  | function =>
    obtain ⟨params, hparams, hn⟩ := bind_eq_ok hn
    obtain ⟨t, ht, hn⟩ := bind_eq_ok hn
    obtain ⟨body, hbody, hn⟩ := bind_eq_ok hn
    cases hn
    have hparams := h.tokens hparams
    have ht := h.token ht
    have hbody := h.nodes hbody
    have hplaced : params.map (Token.placed (.field "params" :: place)) = params :=
      (List.map_congr_left fun p hp => (hparams p hp).placed).trans (List.map_id params)
    exact ⟨⟨ht.loadable, fun p hp => (hparams p hp).loadable, hbody.loadable⟩,
      by rw [placed, ht.placed, hplaced, hbody.placed]⟩

mutual

theorem loaded_loadAt : ∀ (d : Datum) (place : Place) (n : Node), loadAt place d = .ok n →
    n.Loaded place
  | .list items, place, n, h => by
    obtain ⟨ns, hns, h⟩ := bind_eq_ok h
    cases h
    obtain ⟨hloadable, hplaced⟩ := loaded_loadItems items place 0 ns hns
    exact ⟨hloadable, by rw [placed, hplaced]⟩
  | .object fields, place, n, h => by
    obtain ⟨form, -, h⟩ := bind_eq_ok h
    exact loaded_assemble (loaded_partsOf fields place) h
  | .null, _, _, h | .bool _, _, _, h | .int _, _, _, h | .num _, _, _, h | .str _, _, _, h => by
    cases h

theorem loaded_loadItems : ∀ (items : List Datum) (place : Place) (index : Nat) (ns : List Node),
    loadItems place index items = .ok ns → LoadedFrom place index ns
  | [], _, _, _, h => by
    cases h
    exact ⟨trivial, rfl⟩
  | d :: r, place, index, ns, h => by
    obtain ⟨first, hfirst, h⟩ := bind_eq_ok h
    obtain ⟨rest, hrest, h⟩ := bind_eq_ok h
    cases h
    have hfirst := loaded_loadAt d _ first hfirst
    have hrest := loaded_loadItems r place (index + 1) rest hrest
    exact ⟨⟨hfirst.loadable, hrest.loadable⟩, by rw [placedFrom, hfirst.placed, hrest.placed]⟩

theorem loaded_partsOf : ∀ (fields : List (Text × Datum)) (place : Place),
    (partsOf place fields).Loaded place
  | [], _ => nofun
  | (key, d) :: r, place => by
    intro key' part h
    obtain h | h := List.mem_cons.1 h
    · cases h
      exact ⟨rfl, loaded_loadAt d _⟩
    · exact loaded_partsOf r place key' part h

end

/-- Loading makes trees uniform: from whatever data a tree was loaded, the same tree is loaded from
its record, and has that record again. -/
theorem load_settles {d : Datum} {n : Node} (h : ofDatum d = .ok n) :
    ofDatum n.toDatum = .ok n ∧
      ∃ m, ofDatum n.toDatum = .ok m ∧ m.toDatum = n.toDatum := by
  obtain ⟨hloadable, hplaced⟩ := loaded_loadAt d [] n h
  have hn : ofDatum n.toDatum = .ok n := by
    rw [ofDatum, loadAt_toDatum n [] hloadable, hplaced]
  exact ⟨hn, n, hn, rfl⟩

/-- A list for a callee, fields left out and fields too many, lexemes and lines that are none, and
literals of many sorts. -/
theorem load_settles_odd :
    let paren : Datum :=
      .object [("line", .list [.int 7]), ("type", .str "NUMBER"), ("lexeme", .null),
        ("literal", .str " 1_0e2 ")]
    let name : Datum :=
      .object [("type", .str "STRING"), ("lexeme", .bool true), ("line", .null),
        ("literal", .object [("a", .list [.int 1000])])]
    let value : Datum :=
      .object [("type", .str "NUMBER"), ("lexeme", .str ""), ("line", .int 1),
        ("literal", .bool true)]
    let d : Datum :=
      .list [
        .object [("note", .null), ("type", .str "Call"), ("callee", .list [.list []]),
          ("paren", paren)],
        .object [("type", .str "Function"), ("body", .str ""), ("name", name)],
        .object [("type", .str "Print"),
          ("expression", .object [("type", .str "Literal"), ("value", value)])],
        .object [("type", .str "Block")]]
    let thousand : Number := .ofDecimal false ⟨1000, 0⟩
    let n : Node :=
      .list [
        .call (.list [.list []]) ⟨.number, .null, .list [.int 7], .num thousand, []⟩ [],
        .function ⟨.string, .bool true, .null, .object [("a", .list [.int 1000])],
          [.field "name", .item 1]⟩ [] [],
        .print (.literal ⟨.number, .str "", .int 1, .num .one, []⟩),
        .block []]
    ofDatum d = .ok n ∧ n.toDatum ≠ d ∧ ofDatum n.toDatum = .ok n := by
  intro paren name value d thousand n
  have hload : ofDatum d = .ok n := by decide +kernel
  exact ⟨hload, by decide +kernel, (load_settles hload).1⟩

end Node

end Lox
