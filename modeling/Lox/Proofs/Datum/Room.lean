import Lox.Datum.Read
import Mathlib.Data.List.Basic
import Mathlib.Order.Basic

/-!
The room of a reader. With less of it the same comes out or nothing, and it is enough if there is
as much room as there are opening brackets and braces in the text. Too many of them in a row are
too many, whatever follows.
-/
namespace Lox.Datum

variable {α β : Type}

/-- What comes of less room: the same, or nothing. -/
def Cuts (less more : Except ReadError α) : Prop := less = .error .tooDeep ∨ less = more

theorem Cuts.refl (x : Except ReadError α) : Cuts x x := .inr rfl

theorem Cuts.bind {x y : Except ReadError α} (h : Cuts x y) {f g : α → Except ReadError β}
    (hf : ∀ a, Cuts (f a) (g a)) : Cuts (x >>= f) (y >>= g) := by
  obtain rfl | rfl := h
  · exact .inl rfl
  · cases x with
    | error e => exact .inr rfl
    | ok a => exact hf a

structure CutsAt (digits fuel room more : Nat) : Prop where
  value (text : List Char) : Cuts (readValue digits room fuel text) (readValue digits more fuel text)
  items (text : List Char) : Cuts (readItems digits room fuel text) (readItems digits more fuel text)
  fields (before : List (Text × Datum)) (text : List Char) :
    Cuts (readFields digits room fuel before text) (readFields digits more fuel before text)

theorem cuts_readValue {digits fuel room more : Nat} (h : room ≤ more)
    (ih : ∀ room more, room ≤ more → CutsAt digits fuel room more) (text : List Char) :
    Cuts (readValue digits room (fuel + 1) text) (readValue digits more (fuel + 1) text) := by
  simp only [readValue]
  split
  · exact .refl _
  · cases room with
    | zero => exact .inl rfl
    | succ room =>
      obtain ⟨more, rfl⟩ := Nat.exists_eq_add_one.2 (Nat.lt_of_lt_of_le room.succ_pos h)
      dsimp only
      split
      · exact .refl _
      · exact ((ih room more (Nat.le_of_succ_le_succ h)).items _).bind fun _ => .refl _
  · cases room with
    | zero => exact .inl rfl
    | succ room =>
      obtain ⟨more, rfl⟩ := Nat.exists_eq_add_one.2 (Nat.lt_of_lt_of_le room.succ_pos h)
      dsimp only
      split
      · exact .refl _
      · exact ((ih room more (Nat.le_of_succ_le_succ h)).fields _ _).bind fun _ => .refl _
  · exact .refl _

theorem cuts_readItems {digits fuel room more : Nat} (ih : CutsAt digits fuel room more)
    (text : List Char) :
    Cuts (readItems digits room (fuel + 1) text) (readItems digits more (fuel + 1) text) := by
  simp only [readItems]
  apply (ih.value text).bind
  rintro ⟨item, r⟩
  dsimp only
  split
  · exact .refl _
  · exact (ih.items _).bind fun _ => .refl _
  · exact .refl _

theorem cuts_readFields {digits fuel room more : Nat} (ih : CutsAt digits fuel room more)
    (before : List (Text × Datum)) (text : List Char) :
    Cuts (readFields digits room (fuel + 1) before text)
      (readFields digits more (fuel + 1) before text) := by
  simp only [readFields]
  split
  · apply Cuts.bind (.refl _)
    rintro ⟨key, r⟩
    dsimp only
    split
    · apply (ih.value _).bind
      rintro ⟨value, r⟩
      dsimp only
      split
      · exact .refl _
      · exact ih.fields _ _
      · exact .refl _
    · exact .refl _
  · exact .refl _

theorem cutsAt (digits fuel room more : Nat) (h : room ≤ more) :
    CutsAt digits fuel room more := by
  induction fuel generalizing room more with
  | zero => exact ⟨fun _ => .refl _, fun _ => .refl _, fun _ _ => .refl _⟩
  | succ fuel ih =>
    exact ⟨cuts_readValue h ih, cuts_readItems (ih room more h), cuts_readFields (ih room more h)⟩

def isOpening (c : Char) : Bool := c = '[' || c = '{'

def opens (text : List Char) : Nat := text.countP isOpening

theorem opens_le {rest text : List Char} (h : rest <:+ text) : opens rest ≤ opens text :=
  h.sublist.countP_le

theorem opens_skipSpace (text : List Char) : opens (skipSpace text) ≤ opens text :=
  opens_le (List.dropWhile_suffix _)

/-- A reader takes at least one of the `total` opening brackets for each step of the size of what
it reads, and for each list or object that it has room for before it gives up. -/
def Spends (size : α → Nat) (room total : Nat) : Except ReadError (α × List Char) → Prop
  | .ok (a, rest) => size a + opens rest ≤ total
  | .error e => e = .tooDeep → room < total

theorem Spends.mono {size : α → Nat} {room total more : Nat}
    {x : Except ReadError (α × List Char)} (h : Spends size room total x) (hle : total ≤ more) :
    Spends size room more x := by
  cases x with
  | error e => exact fun he => Nat.lt_of_lt_of_le (h he) hle
  | ok found => exact Nat.le_trans h hle

theorem Spends.bind {size : α → Nat} {size' : β → Nat} {room total more : Nat}
    {x : Except ReadError (α × List Char)} (h : Spends size room total x) (hle : total ≤ more)
    {f : α × List Char → Except ReadError (β × List Char)}
    (hf : ∀ a rest, size a + opens rest ≤ total → Spends size' room more (f (a, rest))) :
    Spends size' room more (x >>= f) := by
  cases x with
  | error e => exact fun he => Nat.lt_of_lt_of_le (h he) hle
  | ok found => exact hf found.1 found.2 h

theorem Spends.passes {room : Nat} {r text : List Char} {x : Except ReadError (α × List Char)}
    (h : Spends (fun _ => 0) room (opens r) x) (hr : r <:+ text) (g : α → β) :
    Spends (fun _ => 0) room (opens text) (x >>= fun found => pure (g found.1, found.2)) :=
  h.bind (opens_le hr) fun _ _ hrest => Nat.le_trans hrest (opens_le hr)

theorem spends_readPoints (room start : Nat) (text : List Char) :
    Spends (fun _ => 0) room (opens text) (readPoints start text) := by
  fun_induction readPoints start text with
  | case1 | case3 | case4 | case5 | case6 | case11 | case12 | case14 => nofun
  | case2 r => simpa only [Spends, Nat.zero_add] using opens_le (List.suffix_cons _ r)
  | case7 _ _ _ _ _ _ _ _ _ _ _ _ _ _ _ _ ih =>
    exact ih.passes ⟨[_, _, _, _, _, _, _, _, _, _, _, _], rfl⟩ _
  | case8 _ _ _ _ _ _ _ _ _ _ _ _ _ _ _ _ ih => exact ih.passes ⟨[_, _, _, _, _, _], rfl⟩ _
  | case9 _ _ _ _ _ _ _ _ _ _ _ _ _ ih => exact ih.passes ⟨[_, _, _, _, _, _], rfl⟩ _
  | case10 _ _ _ _ _ _ _ _ _ ih => exact ih.passes ⟨[_, _, _, _, _, _], rfl⟩ _
  | case13 _ _ _ _ _ _ ih => exact ih.passes ⟨[_, _], rfl⟩ _
  | case15 _ _ _ _ _ _ _ ih => exact ih.passes ⟨[_], rfl⟩ _

theorem spends_readString (room : Nat) (text : List Char) :
    Spends (fun _ => 0) room (opens text) (readString text) :=
  (spends_readPoints room _ text).passes (List.suffix_refl _) Text.ofPoints

theorem spanDigits_suffix (text : List Char) : (spanDigits text).2 <:+ text :=
  List.dropWhile_suffix _

theorem readWhole?_suffix {text rest digits : List Char}
    (h : readWhole? text = some (digits, rest)) : rest <:+ text := by
  unfold readWhole? at h
  split at h
  · cases h
    exact List.suffix_cons _ _
  · dsimp only at h
    split at h
    · cases h
    · cases h
      exact spanDigits_suffix _

theorem readFraction_suffix (text : List Char) : (readFraction text).2 <:+ text := by
  unfold readFraction
  split
  · rename_i r
    dsimp only
    split
    · exact List.suffix_refl _
    · exact (spanDigits_suffix r).trans (List.suffix_cons _ r)
  · exact List.suffix_refl _

theorem readExponent_suffix {text rest : List Char} {exponent : Int}
    (h : readExponent text = some (exponent, rest)) : rest <:+ text := by
  unfold readExponent at h
  split at h
  · cases h
  · split at h
    · dsimp only at h
      simp only [Option.ite_none_left_eq_some, Option.some.injEq, Prod.mk.injEq] at h
      obtain ⟨-, -, rfl⟩ := h
      apply ((spanDigits_suffix _).trans _).trans (List.suffix_cons _ _)
      split
      · exact List.suffix_cons _ _
      · exact List.suffix_cons _ _
      · exact List.suffix_refl _
    · cases h

theorem readName?_suffix {text rest : List Char} {d : Datum}
    (h : readName? text = some (d, rest)) : rest <:+ text ∧ d.height = 1 := by
  have hnames : ∀ entry ∈ names, entry.2.height = 1 := by
    intro entry hentry
    simp only [names, List.mem_cons, List.not_mem_nil, or_false] at hentry
    rcases hentry with h | h | h | h | h | h <;> rw [h, height] <;> nofun
  obtain ⟨⟨name, value⟩, hfind, hfound⟩ := Option.map_eq_some_iff.1 h
  cases hfound
  exact ⟨List.drop_suffix _ _, hnames _ (List.mem_of_find?_eq_some hfind)⟩

theorem readNumber?_suffix {text rest : List Char} {d : Datum}
    (h : readNumber? text = some (d, rest)) : rest <:+ text ∧ d.height = 1 := by
  unfold readNumber? at h
  simp only [Option.bind_eq_bind, Option.bind_eq_some_iff] at h
  obtain ⟨⟨whole, afterWhole⟩, hwhole, h⟩ := h
  have hfraction : (readFraction afterWhole).2 <:+ text := by
    refine ((readFraction_suffix afterWhole).trans (readWhole?_suffix hwhole)).trans ?_
    split
    · exact List.suffix_cons _ _
    · exact List.suffix_refl _
  split at h
  · rename_i exponent r hexponent
    cases h
    exact ⟨(readExponent_suffix hexponent).trans hfraction, rfl⟩
  · split at h
    · cases h
      exact ⟨hfraction, rfl⟩
    · cases h
      exact ⟨hfraction, rfl⟩

theorem heightFields_insertField (key : Text) (d : Datum) : ∀ fields : List (Text × Datum),
    heightFields (insertField key d fields) ≤ max (heightFields fields) d.height
  | [] => by simp [insertField, heightFields]
  | (k, e) :: r => by
    have ih := heightFields_insertField key d r
    unfold insertField
    split
    · simp only [heightFields]
      omega
    · simp only [heightFields]
      omega

theorem Spends.leaf {room : Nat} {text rest : List Char} {d : Datum}
    (h : rest <:+ text ∧ d.height = 1) :
    Spends (fun d => d.height - 1) room (opens text) (.ok (d, rest)) := by
  have hopens := opens_le h.1
  change d.height - 1 + opens rest ≤ opens text
  omega

theorem spends_permit (digits : Nat) {room total : Nat} {found : Datum × List Char}
    (h : Spends (fun d => d.height - 1) room total (.ok found)) :
    Spends (fun d => d.height - 1) room total (permit digits found) := by
  unfold permit
  split
  · dsimp only
    split
    · nofun
    · exact h
  · exact h

theorem Spends.opened {size : α → Nat} {room total : Nat}
    {x : Except ReadError (α × List Char)} (h : Spends (fun a => size a - 1) room total x)
    {whole : α → Datum} (hwhole : ∀ a, (whole a).height = size a + 1) :
    Spends (fun d => d.height - 1) (room + 1) (total + 1)
      (x >>= fun found => pure (whole found.1, found.2)) := by
  cases x with
  | error e => exact fun he => Nat.succ_lt_succ (h he)
  | ok found =>
    change size found.1 - 1 + opens found.2 ≤ total at h
    change (whole found.1).height - 1 + opens found.2 ≤ total + 1
    rw [hwhole]
    omega

theorem opens_cons {c : Char} (h : isOpening c = true) (r : List Char) :
    opens (c :: r) = opens r + 1 :=
  List.countP_cons_of_pos h

theorem opens_rest_le {c : Char} {r rest : List Char} (h : skipSpace r = c :: rest) :
    opens rest ≤ opens r := by
  have hskip := opens_skipSpace r
  have hrest := opens_le (List.suffix_cons c rest)
  rw [h] at hskip
  omega

structure SpendsAt (digits fuel room : Nat) : Prop where
  value (text : List Char) :
    Spends (fun d => d.height - 1) room (opens text) (readValue digits room fuel text)
  items (text : List Char) :
    Spends (fun items => heightItems items - 1) room (opens text)
      (readItems digits room fuel text)
  fields (before : List (Text × Datum)) (text : List Char) :
    Spends (fun fields => heightFields fields - 1) room (heightFields before - 1 + opens text)
      (readFields digits room fuel before text)

theorem spends_readValue {digits fuel : Nat} (room : Nat)
    (ih : ∀ room, SpendsAt digits fuel room) (text : List Char) :
    Spends (fun d => d.height - 1) room (opens text) (readValue digits room (fuel + 1) text) := by
  simp only [readValue]
  split
  · rename_i r
    have hr := opens_le (List.suffix_cons '"' r)
    exact (spends_readString room r).bind hr fun _ _ hrest => Nat.le_trans hrest hr
  · rename_i r
    rw [opens_cons rfl]
    cases room with
    | zero => exact fun _ => Nat.succ_pos _
    | succ room =>
      dsimp only
      split
      · rename_i rest hrest
        exact (Nat.zero_add _).trans_le (Nat.le_succ_of_le (opens_rest_le hrest))
      · have hitems := (ih room).items (skipSpace r)
        exact (hitems.opened fun _ => rfl).mono (Nat.succ_le_succ (opens_skipSpace r))
  · rename_i r
    rw [opens_cons rfl]
    cases room with
    | zero => exact fun _ => Nat.succ_pos _
    | succ room =>
      dsimp only
      split
      · rename_i rest hrest
        exact (Nat.zero_add _).trans_le (Nat.le_succ_of_le (opens_rest_le hrest))
      · have hfields := (ih room).fields [] (skipSpace r)
        exact (hfields.opened fun _ => rfl).mono
          (Nat.succ_le_succ ((Nat.zero_add _).trans_le (opens_skipSpace r)))
  · split
    · rename_i found hname
      exact .leaf (readName?_suffix hname)
    · split
      · rename_i found hnumber
        exact spends_permit digits (.leaf (readNumber?_suffix hnumber))
      · nofun

theorem spends_readItems {digits fuel room : Nat} (ih : SpendsAt digits fuel room)
    (text : List Char) :
    Spends (fun items => heightItems items - 1) room (opens text)
      (readItems digits room (fuel + 1) text) := by
  simp only [readItems]
  apply (ih.value text).bind (Nat.le_refl _)
  intro item r hitem
  dsimp only
  split
  · rename_i rest hrest
    have hle := opens_rest_le hrest
    change max item.height 0 - 1 + opens rest ≤ opens text
    omega
  · rename_i rest hrest
    have hle := Nat.le_trans (opens_skipSpace rest) (opens_rest_le hrest)
    have hmore := ih.items (skipSpace rest)
    -- a row is as high as its highest item, and every item has brackets of its own
    cases hread : readItems digits room fuel (skipSpace rest) with
    | error e =>
      rw [hread] at hmore
      intro he
      have := hmore he
      omega
    | ok found =>
      rw [hread] at hmore
      change heightItems found.1 - 1 + opens found.2 ≤ _ at hmore
      change max item.height (heightItems found.1) - 1 + opens found.2 ≤ _
      omega
  · nofun

theorem spends_readFields {digits fuel room : Nat} (ih : SpendsAt digits fuel room)
    (before : List (Text × Datum)) (text : List Char) :
    Spends (fun fields => heightFields fields - 1) room (heightFields before - 1 + opens text)
      (readFields digits room (fuel + 1) before text) := by
  simp only [readFields]
  split
  · rename_i r
    have hr := opens_le (List.suffix_cons '"' r)
    apply (spends_readString room r).bind (Nat.le_trans hr (Nat.le_add_left _ _))
    intro key afterKey hafterKey
    dsimp only
    split
    · rename_i afterColon hcolon
      have hle := Nat.le_trans (opens_skipSpace afterColon) (opens_rest_le hcolon)
      apply (ih.value (skipSpace afterColon)).bind (by omega)
      intro d afterValue hafterValue
      have hinsert := heightFields_insertField key d before
      dsimp only at hafterValue ⊢
      split
      · rename_i rest hrest
        have hle := opens_rest_le hrest
        change heightFields (insertField key d before) - 1 + opens rest ≤ _
        omega
      · rename_i rest hrest
        have hle := Nat.le_trans (opens_skipSpace rest) (opens_rest_le hrest)
        exact (ih.fields (insertField key d before) (skipSpace rest)).mono (by omega)
      · nofun
    · nofun
  · nofun

theorem spendsAt (digits fuel room : Nat) : SpendsAt digits fuel room := by
  induction fuel generalizing room with
  | zero => exact ⟨fun _ => nofun, fun _ => nofun, fun _ _ => nofun⟩
  | succ fuel ih =>
    exact ⟨spends_readValue room ih, spends_readItems (ih room), spends_readFields (ih room)⟩

theorem read_cuts (limits : Limits) {more : Nat} (h : limits.nesting ≤ more) (text : List Char) :
    Cuts (read limits text) (read { limits with nesting := more } text) := by
  unfold read
  split
  · exact .refl _
  · exact ((cutsAt limits.digits _ _ _ h).value _).bind fun _ => .refl _

theorem read_spends (limits : Limits) (text : List Char) :
    (∀ d, read limits text = .ok d → d.height ≤ opens text + 1) ∧
      (read limits text = .error .tooDeep → limits.nesting < opens text) := by
  have hvalue := (spendsAt limits.digits (2 * text.length + 2) limits.nesting).value
    (skipSpace text)
  have hskip := opens_skipSpace text
  unfold read
  split
  · exact ⟨nofun, nofun⟩
  · cases hread : readValue limits.digits limits.nesting (2 * text.length + 2)
        (skipSpace text) with
    | error e =>
      rw [hread] at hvalue
      refine ⟨nofun, fun h => ?_⟩
      have := hvalue (Except.error.inj h)
      omega
    | ok found =>
      obtain ⟨d, rest⟩ := found
      rw [hread] at hvalue
      change d.height - 1 + opens rest ≤ _ at hvalue
      dsimp only [bind, Except.bind]
      split
      · refine ⟨fun e he => ?_, nofun⟩
        cases he
        omega
      · exact ⟨nofun, nofun⟩

theorem readValue_brackets (digits : Nat) (rest : List Char) : ∀ {room fuel count : Nat},
    room < count → 2 * room < fuel →
    readValue digits room fuel (List.replicate count '[' ++ rest) = .error .tooDeep
  | 0, fuel + 1, count + 1, _, _ => by
    rw [List.replicate_succ]
    rfl
  | room + 1, fuel + 2, count + 2, hcount, hfuel => by
    have ih : readValue digits room fuel ('[' :: (List.replicate count '[' ++ rest)) =
        .error .tooDeep :=
      readValue_brackets digits rest (Nat.lt_of_succ_lt_succ hcount) (by omega)
    have hskip : skipSpace ('[' :: (List.replicate count '[' ++ rest)) =
        '[' :: (List.replicate count '[' ++ rest) := rfl
    rw [List.replicate_succ, List.replicate_succ, List.cons_append, List.cons_append, readValue]
    dsimp only
    rw [hskip]
    split
    · rename_i h
      cases h
    · rw [readItems, ih]
      rfl

theorem read_brackets {limits : Limits} {count : Nat} (h : limits.nesting < count)
    (rest : List Char) : read limits (List.replicate count '[' ++ rest) = .error .tooDeep := by
  obtain ⟨count, rfl⟩ := Nat.exists_eq_add_of_lt h
  have hvalue : readValue limits.digits limits.nesting
      (2 * (List.replicate (limits.nesting + count + 1) '[' ++ rest).length + 2)
      (List.replicate (limits.nesting + count + 1) '[' ++ rest) = .error .tooDeep :=
    readValue_brackets limits.digits rest h (by simp; omega)
  rw [List.replicate_succ, List.cons_append] at hvalue ⊢
  rw [read, if_neg (by simp), show skipSpace ('[' :: _) = '[' :: _ from rfl, hvalue]
  rfl

end Lox.Datum
