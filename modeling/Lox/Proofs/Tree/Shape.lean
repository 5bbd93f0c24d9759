import Lox.Proofs.Tree.Loading

/-!
Data of the wrong shape. Most of what keeps a datum from being a tree is explained: what is no
node, a form or a kind that does not exist, a field that is missing, a text that is no number.
There is nothing to say when something other than an object stands for a token, when a field for
several nodes or tokens holds a single thing, and when a number token has a literal of which no
number can be made. Only data that are misshapen in this way, somewhere where a form looks, are
turned down without a word.
-/
namespace Lox

namespace Form

def nodeFields : Form → List String
  | .grouping | .expression | .print => ["expression"]
  | .unary => ["right"]
  | .binary | .logical => ["left", "right"]
  | .assign => ["value"]
  | .call => ["callee"]
  | .var => ["initializer"]
  | .ifElse => ["condition", "then_branch", "else_branch"]
  | .loop => ["condition", "body"]
  | .literal | .name | .block | .function => []

def rowFields : Form → List String
  | .call => ["arguments"]
  | .block => ["statements"]
  | .function => ["body"]
  | _ => []

def tokenFields : Form → List String
  | .literal => ["value"]
  | .unary | .binary | .logical => ["operator"]
  | .name | .assign | .var | .function => ["name"]
  | .call => ["paren"]
  | _ => []

def tokenRowFields : Form → List String
  | .function => ["params"]
  | _ => []

end Form

namespace Datum

inductive Compound : Datum → Prop
  | list (items : List Datum) : Compound (.list items)
  | object (fields : List (Text × Datum)) : Compound (.object fields)

inductive Single : Datum → Prop
  | null : Single .null
  | bool (b : Bool) : Single (.bool b)
  | int (n : Int) : Single (.int n)
  | num (x : Number) : Single (.num x)

end Datum

namespace Token

/-- No number can be made of the literal, and that is all there is to say. -/
inductive Unnumbered : Datum → Prop
  | compound {d : Datum} : d.Compound → Unnumbered d
  | huge {n : Int} : Number.ofInt? n = none → Unnumbered (.int n)

inductive Misshapen : Datum → Prop
  | stranger {d : Datum} : (∀ fields, d ≠ .object fields) → Misshapen d
  | kind {fields : List (Text × Datum)} {type : Datum} :
      Datum.field? fields "type" = some type → type.Compound → Misshapen (.object fields)
  | literal {fields : List (Text × Datum)} {type literal : Datum} :
      Datum.field? fields "type" = some type → toKind type = .ok .number →
      Datum.field? fields "literal" = some literal → Unnumbered literal →
      Misshapen (.object fields)

inductive MisshapenRow : Datum → Prop
  | single {d : Datum} : d.Single → MisshapenRow d
  | text {s : Text} : s.points ≠ [] → MisshapenRow (.str s)
  | object {fields : List (Text × Datum)} : fields ≠ [] → MisshapenRow (.object fields)
  | item {items : List Datum} {d : Datum} : d ∈ items → Misshapen d → MisshapenRow (.list items)

end Token

/-- Somewhere in the datum, where a form looks for a token or for several things, there is
something of another shape. -/
inductive Datum.Misshapen : Datum → Prop
  | item {items : List Datum} {d : Datum} : d ∈ items → Misshapen d → Misshapen (.list items)
  | node {fields : List (Text × Datum)} {form : Form} {key : String} {d : Datum} :
      Node.formOf fields = .ok form → key ∈ form.nodeFields ++ form.rowFields →
      Datum.field? fields key = some d → Misshapen d → Misshapen (.object fields)
  | row {fields : List (Text × Datum)} {form : Form} {key : String} {d : Datum} :
      Node.formOf fields = .ok form → key ∈ form.rowFields →
      Datum.field? fields key = some d → d.Single → Misshapen (.object fields)
  | token {fields : List (Text × Datum)} {form : Form} {key : String} {d : Datum} :
      Node.formOf fields = .ok form → key ∈ form.tokenFields →
      Datum.field? fields key = some d → Token.Misshapen d → Misshapen (.object fields)
  | tokenRow {fields : List (Text × Datum)} {form : Form} {key : String} {d : Datum} :
      Node.formOf fields = .ok form → key ∈ form.tokenRowFields →
      Datum.field? fields key = some d → Token.MisshapenRow d → Misshapen (.object fields)

section Blames

variable {α β : Type} {p : Prop}

/-- If the step is given up without a word, then for a cause. -/
def Blames (p : Prop) (x : Except LoadError α) : Prop :=
  ∀ e, x = .error e → e.message? = none → p

theorem Blames.ok (a : α) : Blames p (.ok a : Except LoadError α) := nofun

theorem Blames.said {e : LoadError} (h : e.message?.isSome = true) :
    Blames p (.error e : Except LoadError α) := by
  rintro _ ⟨⟩ hnone
  rw [hnone] at h
  cases h

theorem Blames.of (h : p) (x : Except LoadError α) : Blames p x := fun _ _ _ => h

theorem Blames.mono {q : Prop} {x : Except LoadError α} (h : Blames p x) (hpq : p → q) :
    Blames q x :=
  fun e he hnone => hpq (h e he hnone)

theorem Blames.bind {x : Except LoadError α} {f : α → Except LoadError β} (hx : Blames p x)
    (hf : ∀ a, x = .ok a → Blames p (f a)) : Blames p (x >>= f) := by
  cases x with
  | error e =>
    rintro _ ⟨⟩ hnone
    exact hx e rfl hnone
  | ok a => exact hf a rfl

theorem Blames.mapM {f : α → Except LoadError β} {as : List α} (h : ∀ a ∈ as, Blames p (f a)) :
    Blames p (as.mapM f) := by
  induction as with
  | nil => exact .ok _
  | cons a as ih =>
    rw [List.forall_mem_cons] at h
    rw [List.mapM_cons]
    exact h.1.bind fun b _ => (ih h.2).bind fun bs _ => .ok _

theorem blames_demandField (key : String) (fields : List (Text × α)) :
    Blames p (demandField key fields) := by
  unfold demandField
  split
  · exact .ok _
  · exact .said rfl

end Blames

namespace Token

variable {d type : Datum} {p : Prop}

theorem blames_toNumber (d : Datum) : Blames (d = .null ∨ Unnumbered d) (toNumber d) := by
  cases d with
  | null => exact .of (.inl rfl) _
  | bool | num => exact .ok _
  | int n =>
    rw [toNumber]
    split
    · exact .ok _
    · rename_i h
      exact .of (.inr (.huge h)) _
  | str s =>
    rw [toNumber]
    split
    · exact .ok _
    · exact .said rfl
  | list => exact .of (.inr (.compound (.list _))) _
  | object => exact .of (.inr (.compound (.object _))) _

theorem blames_toKind (type : Datum) : Blames type.Compound (toKind type) := by
  cases type with
  | str s =>
    rw [toKind]
    split
    · exact .ok _
    · exact .said rfl
  | list => exact .of (.list _) _
  | object => exact .of (.object _) _
  | _ => exact .said rfl

theorem blames_toLiteral (kind : Kind) (literal : Datum) :
    Blames (kind = .number ∧ Unnumbered literal) (toLiteral kind literal) := by
  unfold toLiteral
  split
  · exact .ok _
  · rename_i hnull
    refine Blames.bind ?_ fun x _ => .ok _
    refine (blames_toNumber literal).mono fun h => ⟨rfl, ?_⟩
    exact h.resolve_left hnull
  · exact .ok _

theorem blames_ofDatum (place : Place) (d : Datum) : Blames (Misshapen d) (ofDatum place d) := by
  unfold ofDatum
  split
  · rename_i fields
    refine (blames_demandField _ _).bind fun type htype => ?_
    have htype := demandField_eq_ok htype
    refine ((blames_toKind type).mono (.kind htype)).bind fun kind hkind => ?_
    have hliteral : Blames (Misshapen (.object fields))
        (toLiteral kind ((Datum.field? fields "literal").getD .null)) := by
      cases hfield : Datum.field? fields "literal" with
      | none => cases kind <;> exact .ok _
      | some literal =>
        refine (blames_toLiteral kind literal).mono ?_
        rintro ⟨rfl, h⟩
        exact .literal htype hkind hfield h
    refine hliteral.bind fun literal _ => ?_
    exact (blames_demandField _ _).bind fun _ _ => (blames_demandField _ _).bind fun _ _ => .ok _
  · rename_i hstranger
    exact .of (.stranger hstranger) _

theorem blames_listOfDatum (place : Place) (d : Datum) :
    Blames (MisshapenRow d) (listOfDatum place d) := by
  cases d with
  | list items =>
    exact Blames.mapM fun d hd => (blames_ofDatum place d).mono (.item hd)
  | str s =>
    rw [listOfDatum]
    split
    · exact .ok _
    · rename_i h
      exact .of (.text fun hnil => h (by rw [hnil]; rfl)) _
  | object fields =>
    rw [listOfDatum]
    split
    · exact .ok _
    · rename_i h
      exact .of (.object fun hnil => h (by rw [hnil]; rfl)) _
  | null => exact .of (.single .null) _
  | bool b => exact .of (.single (.bool b)) _
  | int n => exact .of (.single (.int n)) _
  | num x => exact .of (.single (.num x)) _

end Token

namespace Node

theorem field?_partsOf (place : Place) (fields : List (Text × Datum)) (key : String) :
    Datum.field? (partsOf place fields) key = (Datum.field? fields key).map fun d =>
      ⟨.field key :: place, d, loadAt (.field key :: place) d⟩ := by
  induction fields with
  | nil => rfl
  | cons field r ih =>
    obtain ⟨k, d⟩ := field
    unfold Datum.field? at ih ⊢
    rw [partsOf, List.lookup_cons, List.lookup_cons]
    by_cases h : (key : Text) = k
    · subst h
      simp
    · simp [beq_false_of_ne h, ih]

theorem part_of_demandField {place : Place} {fields : List (Text × Datum)} {key : String}
    {part : Part} (h : demandField key (partsOf place fields) = .ok part) :
    ∃ d, Datum.field? fields key = some d ∧
      part = ⟨.field key :: place, d, loadAt (.field key :: place) d⟩ := by
  have hpart := demandField_eq_ok h
  rw [field?_partsOf] at hpart
  obtain ⟨d, hd, rfl⟩ := Option.map_eq_some_iff.1 hpart
  exact ⟨d, hd, rfl⟩

end Node

/-- Each field of an object, taken as a node, is given up without a word only for its own shape. -/
def Fair (fields : List (Text × Datum)) : Prop :=
  ∀ key d, (key, d) ∈ fields → ∀ place, Blames d.Misshapen (Node.loadAt place d)

namespace Parts

variable {place : Place} {fields : List (Text × Datum)} {form : Form} {key : String}

theorem blames_node (hfair : Fair fields) (hform : Node.formOf fields = .ok form)
    (hkey : key ∈ form.nodeFields) :
    Blames (Datum.Misshapen (.object fields)) ((Node.partsOf place fields).node key) := by
  refine (blames_demandField _ _).bind fun part hpart => ?_
  obtain ⟨d, hd, rfl⟩ := Node.part_of_demandField hpart
  exact (hfair _ d (Datum.mem_of_field? hd) _).mono
    (.node hform (List.mem_append_left _ hkey) hd)

theorem blames_token (hform : Node.formOf fields = .ok form) (hkey : key ∈ form.tokenFields) :
    Blames (Datum.Misshapen (.object fields)) ((Node.partsOf place fields).token key) := by
  refine (blames_demandField _ _).bind fun part hpart => ?_
  obtain ⟨d, hd, rfl⟩ := Node.part_of_demandField hpart
  exact (Token.blames_ofDatum _ d).mono (.token hform hkey hd)

theorem blames_nodes (hfair : Fair fields) (hform : Node.formOf fields = .ok form)
    (hkey : key ∈ form.rowFields) :
    Blames (Datum.Misshapen (.object fields)) ((Node.partsOf place fields).nodes key) := by
  unfold Parts.nodes
  rw [Node.field?_partsOf]
  cases hd : Datum.field? fields key with
  | none => exact .ok _
  | some d =>
    have hnode := hfair _ d (Datum.mem_of_field? hd) (.field key :: place)
    have hnode : Blames (Datum.Misshapen (.object fields)) _ := hnode.mono fun h =>
      .node hform (List.mem_append_right _ hkey) hd h
    have hsingle (h : d.Single) : Datum.Misshapen (.object fields) := .row hform hkey hd h
    cases d with
    | list items =>
      -- A list is never read as anything but a list of nodes.
      simp only [Option.map_some, Part.nodes]
      rw [Node.loadAt] at hnode ⊢
      cases hitems : Node.loadItems (.field key :: place) 0 items with
      | error e =>
        rw [hitems] at hnode
        rintro _ ⟨⟩ hnone
        exact hnode e rfl hnone
      | ok ns => exact .ok _
    | str s =>
      simp only [Option.map_some, Part.nodes]
      split
      · exact .ok _
      · exact .said rfl
    | object inner =>
      cases inner with
      | nil => exact .ok _
      | cons => exact .said rfl
    | null => exact .of (hsingle .null) _
    | bool b => exact .of (hsingle (.bool b)) _
    | int n => exact .of (hsingle (.int n)) _
    | num x => exact .of (hsingle (.num x)) _

theorem blames_tokens (hform : Node.formOf fields = .ok form)
    (hkey : key ∈ form.tokenRowFields) :
    Blames (Datum.Misshapen (.object fields)) ((Node.partsOf place fields).tokens key) := by
  unfold Parts.tokens
  rw [Node.field?_partsOf]
  cases hd : Datum.field? fields key with
  | none => exact .ok _
  | some d => exact (Token.blames_listOfDatum _ d).mono (.tokenRow hform hkey hd)

theorem blames_assemble (hfair : Fair fields) (hform : Node.formOf fields = .ok form) :
    Blames (Datum.Misshapen (.object fields)) ((Node.partsOf place fields).assemble form) := by
  let parts := Node.partsOf place fields
  have hnode {key : String} (h : key ∈ form.nodeFields) : Blames _ (parts.node key) :=
    blames_node hfair hform h
  have htoken {key : String} (h : key ∈ form.tokenFields) : Blames _ (parts.token key) :=
    blames_token hform h
  have hnodes {key : String} (h : key ∈ form.rowFields) : Blames _ (parts.nodes key) :=
    blames_nodes hfair hform h
  have htokens {key : String} (h : key ∈ form.tokenRowFields) : Blames _ (parts.tokens key) :=
    blames_tokens hform h
  cases form with
  | literal | name => exact (htoken (by decide)).bind fun _ _ => .ok _
  | grouping | expression | print => exact (hnode (by decide)).bind fun _ _ => .ok _
  | unary | assign | var =>
    exact (htoken (by decide)).bind fun _ _ => (hnode (by decide)).bind fun _ _ => .ok _
  | binary | logical =>
    exact (hnode (by decide)).bind fun _ _ => (htoken (by decide)).bind fun _ _ =>
      (hnode (by decide)).bind fun _ _ => .ok _
  | call =>
    exact (hnodes (by decide)).bind fun _ _ => (hnode (by decide)).bind fun _ _ =>
      (htoken (by decide)).bind fun _ _ => .ok _
  | block => exact (hnodes (by decide)).bind fun _ _ => .ok _
  | ifElse =>
    exact (hnode (by decide)).bind fun _ _ => (hnode (by decide)).bind fun _ _ =>
      (hnode (by decide)).bind fun _ _ => .ok _
  | loop => exact (hnode (by decide)).bind fun _ _ => (hnode (by decide)).bind fun _ _ => .ok _
  | function =>
    exact (htokens (by decide)).bind fun _ _ => (htoken (by decide)).bind fun _ _ =>
      (hnodes (by decide)).bind fun _ _ => .ok _

end Parts

namespace Node

theorem blames_formOf {p : Prop} (fields : List (Text × Datum)) : Blames p (formOf fields) := by
  unfold formOf
  split
  · exact .said rfl
  · split
    · exact .ok _
    · exact .said rfl
  · exact .said rfl

mutual

theorem blames_loadAt : ∀ (d : Datum) (place : Place), Blames d.Misshapen (loadAt place d)
  | .list items, place =>
    (blames_loadItems items place 0).bind (fun _ _ => .ok _) |>.mono fun ⟨_, hd, h⟩ => .item hd h
  | .object fields, _ =>
    (blames_formOf fields).bind fun _ hform => Parts.blames_assemble (fair fields) hform
  | .null, _ | .bool _, _ | .int _, _ | .num _, _ | .str _, _ => .said rfl

theorem blames_loadItems : ∀ (items : List Datum) (place : Place) (index : Nat),
    Blames (∃ d ∈ items, d.Misshapen) (loadItems place index items)
  | [], _, _ => .ok _
  | d :: r, place, index => by
    have hfirst := blames_loadAt d (.item index :: place)
    have hrest := blames_loadItems r place (index + 1)
    refine (hfirst.mono fun h => ⟨d, List.mem_cons_self, h⟩).bind fun _ _ => ?_
    refine (hrest.mono fun ⟨d', hd, h⟩ => ⟨d', List.mem_cons_of_mem d hd, h⟩).bind fun _ _ => ?_
    exact .ok _

theorem fair : ∀ fields : List (Text × Datum), Fair fields
  | [] => nofun
  | (key, d) :: r => by
    intro key' d' h
    obtain h | h := List.mem_cons.1 h
    · cases h
      exact blames_loadAt d
    · exact fair r key' d' h

end

end Node

theorem forall_mem_of_mapM {ε α β : Type} {g : α → Except ε β} {as : List α} {bs : List β}
    (h : as.mapM g = .ok bs) : ∀ a ∈ as, ∃ b, g a = .ok b := by
  induction as generalizing bs with
  | nil => simp
  | cons a as ih =>
    rw [List.mapM_cons] at h
    obtain ⟨b, hb, h⟩ := bind_eq_ok h
    obtain ⟨_, hbs, -⟩ := bind_eq_ok h
    rw [List.forall_mem_cons]
    exact ⟨⟨b, hb⟩, ih hbs⟩

namespace Token

variable {place : Place} {d : Datum}

theorem not_unnumbered {x : Number} (h : toNumber d = .ok x) : ¬Unnumbered d := by
  rintro (⟨_ | _⟩ | hhuge)
  · cases h
  · cases h
  · rw [toNumber, hhuge] at h
    cases h

theorem not_misshapen {t : Token} (h : ofDatum place d = .ok t) : ¬Misshapen d := by
  unfold ofDatum at h
  split at h
  · obtain ⟨type, htype, h⟩ := bind_eq_ok h
    obtain ⟨kind, hkind, h⟩ := bind_eq_ok h
    obtain ⟨literal, hliteral, -⟩ := bind_eq_ok h
    have htype := demandField_eq_ok htype
    rintro (hstranger | ⟨htype', hcompound⟩ | ⟨htype', hkind', hfield, hunnumbered⟩)
    · exact hstranger _ rfl
    · cases htype.symm.trans htype'
      cases hcompound <;> cases hkind
    · cases htype.symm.trans htype'
      cases hkind.symm.trans hkind'
      rw [hfield, Option.getD_some] at hliteral
      unfold toLiteral at hliteral
      split at hliteral
      · cases hunnumbered with
        | compound hcompound => cases hcompound
      · obtain ⟨x, hx, -⟩ := bind_eq_ok hliteral
        exact not_unnumbered hx hunnumbered
      · rename_i hnumber _
        exact hnumber rfl
  · cases h

theorem not_misshapenRow {ts : List Token} (h : listOfDatum place d = .ok ts) :
    ¬MisshapenRow d := by
  rintro (hsingle | htext | hobject | ⟨hd, hmisshapen⟩)
  · cases hsingle <;> cases h
  · rename_i s
    rw [listOfDatum, if_neg (by simpa using htext)] at h
    cases h
  · rename_i fields
    rw [listOfDatum, if_neg (by simpa using hobject)] at h
    cases h
  · obtain ⟨t, ht⟩ := forall_mem_of_mapM h _ hd
    exact not_misshapen ht hmisshapen

end Token

structure Parts.Taken (parts : Parts) (form : Form) : Prop where
  node : ∀ key ∈ form.nodeFields, ∃ n, parts.node key = .ok n
  nodes : ∀ key ∈ form.rowFields, ∃ ns, parts.nodes key = .ok ns
  token : ∀ key ∈ form.tokenFields, ∃ t, parts.token key = .ok t
  tokens : ∀ key ∈ form.tokenRowFields, ∃ ts, parts.tokens key = .ok ts

theorem Parts.taken_of_assemble {parts : Parts} {form : Form} {n : Node}
    (h : parts.assemble form = .ok n) : parts.Taken form := by
  cases form with
  | literal | name | grouping | expression | print | block =>
    obtain ⟨_, ha, -⟩ := bind_eq_ok h
    constructor <;>
      simp [Form.nodeFields, Form.rowFields, Form.tokenFields, Form.tokenRowFields, ha]
  | unary | assign | var | loop =>
    obtain ⟨_, ha, h⟩ := bind_eq_ok h
    obtain ⟨_, hb, -⟩ := bind_eq_ok h
    constructor <;>
      simp [Form.nodeFields, Form.rowFields, Form.tokenFields, Form.tokenRowFields, ha, hb]
  | binary | logical | call | ifElse | function =>
    obtain ⟨_, ha, h⟩ := bind_eq_ok h
    obtain ⟨_, hb, h⟩ := bind_eq_ok h
    obtain ⟨_, hc, -⟩ := bind_eq_ok h
    constructor <;>
      simp [Form.nodeFields, Form.rowFields, Form.tokenFields, Form.tokenRowFields, ha, hb, hc]

namespace Node

variable {place : Place}

theorem forall_mem_of_loadItems {items : List Datum} {index : Nat} {ns : List Node}
    (h : loadItems place index items = .ok ns) :
    ∀ d ∈ items, ∃ place n, loadAt place d = .ok n := by
  induction items generalizing index ns with
  | nil => simp
  | cons d r ih =>
    obtain ⟨n, hn, h⟩ := bind_eq_ok h
    obtain ⟨_, hr, -⟩ := bind_eq_ok h
    rw [List.forall_mem_cons]
    exact ⟨⟨_, n, hn⟩, ih hr⟩

theorem taken_of_loadAt {fields : List (Text × Datum)} {form : Form} {n : Node}
    (h : loadAt place (.object fields) = .ok n) (hform : formOf fields = .ok form) :
    (partsOf place fields).Taken form := by
  obtain ⟨form', hform', h⟩ := bind_eq_ok h
  cases hform.symm.trans hform'
  exact Parts.taken_of_assemble h

theorem not_misshapen {d : Datum} (hd : d.Misshapen) :
    ∀ place n, loadAt place d ≠ .ok n := by
  induction hd with
  | item hmem _ ih =>
    intro place n h
    obtain ⟨ns, hns, -⟩ := bind_eq_ok h
    obtain ⟨place', n', hn'⟩ := forall_mem_of_loadItems hns _ hmem
    exact ih place' n' hn'
  | @node fields form key d hform hkey hfield hmisshapen ih =>
    intro place n h
    have htaken := taken_of_loadAt h hform
    obtain hkey | hkey := List.mem_append.1 hkey
    · obtain ⟨m, hm⟩ := htaken.node key hkey
      rw [Parts.node, demandField, field?_partsOf, hfield] at hm
      exact ih _ m hm
    · obtain ⟨ms, hms⟩ := htaken.nodes key hkey
      rw [Parts.nodes, field?_partsOf, hfield] at hms
      cases hmisshapen with
      | item =>
        simp only [Option.map_some, Part.nodes] at hms
        split at hms
        · rename_i hitems
          exact ih _ _ hitems
        · cases hms
        · cases hms
      | @node inner _ _ _ hinner | @row inner _ _ _ hinner | @token inner _ _ _ hinner
      | @tokenRow inner _ _ _ hinner =>
        cases inner with
        | nil => cases hinner
        | cons => cases hms
  | @row fields form key d hform hkey hfield hsingle =>
    intro place n h
    obtain ⟨ms, hms⟩ := (taken_of_loadAt h hform).nodes key hkey
    rw [Parts.nodes, field?_partsOf, hfield] at hms
    cases hsingle <;> cases hms
  | @token fields form key d hform hkey hfield hmisshapen =>
    intro place n h
    obtain ⟨t, ht⟩ := (taken_of_loadAt h hform).token key hkey
    rw [Parts.token, demandField, field?_partsOf, hfield] at ht
    exact Token.not_misshapen ht hmisshapen
  | @tokenRow fields form key d hform hkey hfield hmisshapen =>
    intro place n h
    obtain ⟨ts, hts⟩ := (taken_of_loadAt h hform).tokens key hkey
    rw [Parts.tokens, field?_partsOf, hfield] at hts
    exact Token.not_misshapenRow hts hmisshapen

end Node

end Lox
