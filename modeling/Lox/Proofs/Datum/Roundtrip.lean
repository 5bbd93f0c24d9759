import Lox.Proofs.Datum.Numeral
import Lox.Proofs.Text.Encoding

/-!
What is written to a data file is read back. Data can be written if its texts are whole, its
numbers are not NaN, its whole numbers have few enough digits, and no object names a field twice;
its text is then one that reads as the same data at any level, whatever follows it, if there is
room to read it.
-/
namespace Lox.Datum

theorem hexValue?_hexDigit (n : Nat) : hexValue? (Text.hexDigit (n % 16)) = some (n % 16) := by
  have all : ∀ d, d < 16 → hexValue? (Text.hexDigit d) = some d := by decide
  exact all _ (Nat.mod_lt n (by decide))

theorem hexCode?_hexDigits {n : Nat} (h : n < 0x10000) :
    ∃ a b c d, Text.hexDigits 4 n = [a, b, c, d] ∧ hexCode? a b c d = some n := by
  refine ⟨_, _, _, _, rfl, ?_⟩
  simp only [hexCode?, hexValue?_hexDigit, Option.bind_eq_bind, Option.bind_some, Option.pure_def,
    Option.some.injEq]
  omega

theorem readPoints_simple (start : Nat) {x c : Char} (hx : simpleEscape? x = some c)
    {r rest : List Char} {ps : List Point} (h : readPoints start r = .ok (ps, rest)) :
    readPoints start ('\\' :: x :: r) = .ok (.char c :: ps, rest) := by
  have hu : x ≠ 'u' := by
    intro hu
    simp [hu, simpleEscape?] at hx
  rw [readPoints]
  · simp [hu, hx, h, bind, Except.bind, pure, Except.pure]
  all_goals simp [hu]

theorem readPoints_hex (start : Nat) {a b c d : Char} {n : Nat} (hn : n < 32)
    (hcode : hexCode? a b c d = some n)
    {r rest : List Char} (hr : r ≠ []) {ps : List Point}
    (h : readPoints start r = .ok (ps, rest)) :
    readPoints start ('\\' :: 'u' :: a :: b :: c :: d :: r) = .ok (Point.ofCode n :: ps, rest) := by
  have hhigh : isHighSurrogate n = false := decide_eq_false (by omega)
  rw [readPoints, hcode]
  dsimp only
  split
  · exact absurd rfl hr
  · rw [if_neg (by simp [hhigh]), h]
    rfl
  · rw [h]
    rfl

theorem readPoints_plain (start : Nat) {c : Char} (hquote : c ≠ '"') (hslash : c ≠ '\\')
    (hcontrol : 32 ≤ c.toNat) {r rest : List Char} {ps : List Point}
    (h : readPoints start r = .ok (ps, rest)) :
    readPoints start (c :: r) = .ok (.char c :: ps, rest) := by
  rw [readPoints]
  · rw [if_neg (by omega), h]
    rfl
  all_goals simp [hquote, hslash]

theorem readPoints_escapeChar (start : Nat) (c : Char) {r rest : List Char} (hr : r ≠ [])
    {ps : List Point} (h : readPoints start r = .ok (ps, rest)) :
    readPoints start (escapeChar c ++ r) = .ok (.char c :: ps, rest) := by
  unfold escapeChar
  split
  · rename_i hc
    apply readPoints_simple start _ h
    rcases hc with rfl | rfl <;> rfl
  split
  · rename_i hc
    rw [hc]
    exact readPoints_simple start rfl h
  split
  · rename_i hc
    rw [hc]
    exact readPoints_simple start rfl h
  split
  · rename_i hc
    rw [hc]
    exact readPoints_simple start rfl h
  split
  · rename_i hc
    rw [← Char.ofNat_toNat c, hc]
    exact readPoints_simple start rfl h
  split
  · rename_i hc
    rw [← Char.ofNat_toNat c, hc]
    exact readPoints_simple start rfl h
  split
  · rename_i hc
    obtain ⟨a, b, x, d, hdigits, hcode⟩ := hexCode?_hexDigits (Nat.lt_trans hc (by decide))
    have hpoint : Point.ofCode c.toNat = .char c := by
      rw [Point.ofCode, dif_neg (by omega), Char.ofNat_toNat]
    rw [hdigits, ← hpoint]
    exact readPoints_hex start hc hcode hr h
  · rename_i hspecial _ _ _ _ _ hcontrol
    exact readPoints_plain start (fun hc => hspecial (.inl hc)) (fun hc => hspecial (.inr hc))
      (by omega) h

theorem readPoints_escaped (start : Nat) (cs rest : List Char) :
    readPoints start (cs.flatMap escapeChar ++ '"' :: rest) = .ok (cs.map .char, rest) := by
  induction cs with
  | nil => rw [List.flatMap_nil, List.nil_append, readPoints]; rfl
  | cons c cs ih =>
    rw [List.flatMap_cons, List.append_assoc]
    exact readPoints_escapeChar start c (by simp) ih

theorem chars_writeString {s : Text} (h : s.isWhole = true) :
    (writeString s).chars = '"' :: (s.chars.flatMap escapeChar ++ ['"']) := by
  cases s with
  | plain s =>
    have hpoints : (Text.plain s).points.flatMap escape =
        (s.toList.flatMap escapeChar).map Point.char := by
      simp [List.flatMap_map, List.map_flatMap, escape]
    unfold writeString
    rw [hpoints]
    simp [Text.chars, Point.shown, Function.comp_def]
  | broken points hb => cases h

theorem readString_writeString {s : Text} (h : s.isWhole = true) (rest : List Char) :
    readString (s.chars.flatMap escapeChar ++ '"' :: rest) = .ok (s, rest) := by
  have htext : Text.ofPoints (s.chars.map .char) = s := by
    apply Text.eq_of_points
    rw [Text.points_ofPoints]
    cases s with
    | plain s => simp
    | broken points hb => cases h
  unfold readString
  rw [readPoints_escaped]
  change Except.ok (Text.ofPoints (s.chars.map .char), rest) = _
  rw [htext]

mutual

/-- Data that can be written and read back where whole numbers may have so many digits. -/
def Writable (digits : Nat) : Datum → Prop
  | .int n => (natDigits n.natAbs).length ≤ digits
  | .num x => x.isNaN = false
  | .str s => s.isWhole = true
  | .list items => WritableItems digits items
  | .object fields => WritableFields digits fields ∧ (fields.map Prod.fst).Nodup
  | _ => True

def WritableItems (digits : Nat) : List Datum → Prop
  | [] => True
  | d :: r => Writable digits d ∧ WritableItems digits r

def WritableFields (digits : Nat) : List (Text × Datum) → Prop
  | [] => True
  | (k, d) :: r => k.isWhole = true ∧ Writable digits d ∧ WritableFields digits r

end

variable {digits room : Nat}

theorem chars_newline (level : Nat) :
    (newline level).chars = '\n' :: List.replicate (2 * level) ' ' := by
  simp [newline]

theorem skipSpace_newline (level : Nat) (r : List Char) :
    skipSpace ((newline level).chars ++ r) = skipSpace r := by
  have hblank : ∀ c ∈ (newline level).chars, isSpace c = true := by
    intro c hc
    rw [chars_newline] at hc
    rcases List.mem_cons.1 hc with hc | hc
    · rw [hc]
      rfl
    · rw [List.eq_of_mem_replicate hc]
      rfl
  rw [skipSpace, List.dropWhile_append_of_pos hblank, skipSpace]

theorem skipSpace_cons {c : Char} (h : isSpace c = false) (r : List Char) :
    skipSpace (c :: r) = c :: r := by
  rw [skipSpace, List.dropWhile_cons_of_neg (by simp [h])]

theorem skipSpace_blank (r : List Char) : skipSpace (' ' :: r) = skipSpace r := rfl

theorem unnumbered_cons {c : Char} (h : isAsciiDigit c = false ∧ c ≠ '.' ∧ c ≠ 'e' ∧ c ≠ 'E')
    (r : List Char) : Unnumbered (c :: r) := by
  intro d hd
  rw [← Option.some.inj hd]
  exact h

theorem unnumbered_newline (level : Nat) (r : List Char) :
    Unnumbered ((newline level).chars ++ r) := by
  rw [chars_newline]
  exact unnumbered_cons (by decide) _

def StartsValue (text : List Char) : Prop :=
  ∃ c r, text = c :: r ∧ isSpace c = false ∧ c ≠ ']' ∧ c ≠ Char.ofNat 0xfeff

theorem StartsNumeral.startsValue {text : List Char} (h : StartsNumeral text) :
    StartsValue text := by
  obtain ⟨negative, c, r, hc, rfl⟩ := h
  cases negative with
  | true => exact ⟨'-', c :: r, rfl, by decide, by decide, by decide⟩
  | false =>
    have hspace : isSpace c = false := by
      have hblank := isAsciiDigit_ne hc (d := ' ') rfl
      have htab := isAsciiDigit_ne hc (d := '\t') rfl
      have hline := isAsciiDigit_ne hc (d := '\n') rfl
      have hreturn := isAsciiDigit_ne hc (d := '\r') rfl
      simp [isSpace, hblank, htab, hline, hreturn]
    exact ⟨c, r, rfl, hspace, isAsciiDigit_ne hc rfl, isAsciiDigit_ne hc rfl⟩

theorem dataText_of_infinite {x : Number} (h : x.isInfinite = true) :
    (x.dataText fileNames).toList = withSign x.negative "Infinity".toList := by
  have hmagnitude : x.magnitude = Number.infinite := of_decide_eq_true h
  have hnan : x.isNaN = false := decide_eq_false (by omega)
  rw [Number.dataText, if_neg (by simp [hnan]), if_pos h, String.toList_ofList]
  rfl

theorem startsValue_write {d : Datum} (h : d.Writable digits) (level : Nat) :
    StartsValue (d.write level).chars := by
  cases d with
  | null => exact ⟨'n', _, rfl, by decide, by decide, by decide⟩
  | bool b => cases b <;> exact ⟨_, _, rfl, by decide, by decide, by decide⟩
  | int n =>
    rw [write, Text.chars_plain]
    exact (startsNumeral_intText n).startsValue
  | num x =>
    rw [write, Text.chars_plain]
    cases hinfinite : x.isInfinite with
    | true =>
      rw [dataText_of_infinite hinfinite]
      cases x.negative <;> exact ⟨_, _, rfl, by decide, by decide, by decide⟩
    | false =>
      exact (startsNumeral_dataText (Number.isFinite_of h hinfinite)).startsValue
  | str s =>
    rw [write, chars_writeString h]
    exact ⟨_, _, rfl, by decide, by decide, by decide⟩
  | list items =>
    cases items <;> simp only [write, Text.chars_append, Text.chars_plain] <;>
      exact ⟨_, _, rfl, by decide, by decide, by decide⟩
  | object fields =>
    cases fields <;> simp only [write, Text.chars_append, Text.chars_plain] <;>
      exact ⟨_, _, rfl, by decide, by decide, by decide⟩

def Bare (text : List Char) : Prop :=
  ∀ c, text.head? = some c → c ≠ '"' ∧ c ≠ '[' ∧ c ≠ '{'

theorem readValue_name (fuel : Nat) {text : List Char} {found : Datum × List Char}
    (hbare : Bare text) (h : readName? text = some found) :
    readValue digits room (fuel + 1) text = .ok found := by
  rw [readValue]
  · rw [h]
    rfl
  · exact fun r htext => (hbare '"' (by rw [htext]; rfl)).1 rfl
  · exact fun r htext => (hbare '[' (by rw [htext]; rfl)).2.1 rfl
  · exact fun r htext => (hbare '{' (by rw [htext]; rfl)).2.2 rfl

theorem StartsNumeral.bare {text : List Char} (h : StartsNumeral text) : Bare text := by
  obtain ⟨negative, c, r, hc, rfl⟩ := h
  intro d hd
  cases negative with
  | true =>
    rw [← Option.some.inj hd]
    decide
  | false =>
    rw [← Option.some.inj hd]
    exact ⟨isAsciiDigit_ne hc rfl, isAsciiDigit_ne hc rfl, isAsciiDigit_ne hc rfl⟩

theorem readValue_numeral (fuel : Nat) {text : List Char} {found : Datum × List Char}
    (hstart : StartsNumeral text) (h : readNumber? text = some found) :
    readValue digits room (fuel + 1) text = permit digits found := by
  have hbare := hstart.bare
  rw [readValue]
  · rw [hstart.readName?]
    dsimp only
    rw [h]
  · exact fun r htext => (hbare '"' (by rw [htext]; rfl)).1 rfl
  · exact fun r htext => (hbare '[' (by rw [htext]; rfl)).2.1 rfl
  · exact fun r htext => (hbare '{' (by rw [htext]; rfl)).2.2 rfl

theorem bare_cons {c : Char} (h : c ≠ '"' ∧ c ≠ '[' ∧ c ≠ '{') (r : List Char) :
    Bare (c :: r) := by
  intro d hd
  rw [← Option.some.inj hd]
  exact h

theorem readValue_infinite (fuel : Nat) {x : Number} (h : x.isInfinite = true)
    (rest : List Char) :
    readValue digits room (fuel + 1) ((x.dataText fileNames).toList ++ rest) = .ok (.num x, rest) := by
  have hmagnitude : x.magnitude = Number.infinite := of_decide_eq_true h
  have hself := Number.ofMagnitude_self x
  rw [hmagnitude] at hself
  rw [dataText_of_infinite h]
  cases hsign : x.negative with
  | true =>
    rw [hsign] at hself
    rw [← hself]
    exact readValue_name fuel (bare_cons (by decide) _) rfl
  | false =>
    rw [hsign] at hself
    rw [← hself]
    exact readValue_name fuel (bare_cons (by decide) _) rfl

theorem insertField_of_not_mem {key : Text} {value : Datum} {fields : List (Text × Datum)}
    (h : key ∉ fields.map Prod.fst) : insertField key value fields = fields ++ [(key, value)] := by
  induction fields with
  | nil => rfl
  | cons field fields ih =>
    obtain ⟨k, v⟩ := field
    rw [List.map_cons, List.mem_cons, not_or] at h
    rw [insertField, if_neg (Ne.symm h.1), ih h.2]
    rfl

theorem StartsValue.skipSpace {text : List Char} (h : StartsValue text) (rest : List Char) :
    skipSpace (text ++ rest) = text ++ rest := by
  obtain ⟨c, r, rfl, hspace, -⟩ := h
  exact skipSpace_cons hspace _

def writeMore (level : Nat) (items : List Datum) : List Char :=
  if items = [] then [] else ',' :: (writeItems level items).chars

theorem chars_writeItems (level : Nat) (d : Datum) (r : List Datum) :
    (writeItems level (d :: r)).chars =
      (newline level).chars ++ ((write level d).chars ++ writeMore level r) := by
  cases r with
  | nil => simp [writeItems, writeMore]
  | cons e r => simp [writeItems, writeMore]

theorem skipSpace_writeItems {d : Datum} (h : d.Writable digits) (level : Nat) (r : List Datum)
    (rest : List Char) :
    skipSpace ((writeItems level (d :: r)).chars ++ rest) =
      (write level d).chars ++ (writeMore level r ++ rest) := by
  rw [chars_writeItems, List.append_assoc, skipSpace_newline, List.append_assoc,
    (startsValue_write h level).skipSpace]

def writeMoreFields (level : Nat) (fields : List (Text × Datum)) : List Char :=
  if fields = [] then [] else ',' :: (writeFields level fields).chars

theorem chars_writeFields {k : Text} (h : k.isWhole = true) (level : Nat) (d : Datum)
    (r : List (Text × Datum)) :
    (writeFields level ((k, d) :: r)).chars =
      (newline level).chars ++ '"' :: (k.chars.flatMap escapeChar ++
        '"' :: ':' :: ' ' :: ((write level d).chars ++ writeMoreFields level r)) := by
  cases r with
  | nil => simp [writeFields, writeMoreFields, chars_writeString h]
  | cons e r => simp [writeFields, writeMoreFields, chars_writeString h]

theorem skipSpace_writeFields {k : Text} (h : k.isWhole = true) (level : Nat) (d : Datum)
    (r : List (Text × Datum)) (rest : List Char) :
    skipSpace ((writeFields level ((k, d) :: r)).chars ++ rest) =
      '"' :: (k.chars.flatMap escapeChar ++
        '"' :: ':' :: ' ' :: ((write level d).chars ++ (writeMoreFields level r ++ rest))) := by
  rw [chars_writeFields h, List.append_assoc, skipSpace_newline, List.cons_append,
    skipSpace_cons rfl]
  simp

section Steps

variable {fuel : Nat} {text r rest : List Char} {d : Datum} {key : Text}

theorem readItems_last (hvalue : readValue digits room fuel text = .ok (d, r))
    (hspace : skipSpace r = ']' :: rest) : readItems digits room (fuel + 1) text = .ok ([d], rest) := by
  rw [readItems, hvalue]
  simp only [bind, Except.bind, hspace]
  rfl

theorem readItems_next {r' : List Char} {items : List Datum}
    (hvalue : readValue digits room fuel text = .ok (d, r)) (hspace : skipSpace r = ',' :: r')
    (hitems : readItems digits room fuel (skipSpace r') = .ok (items, rest)) :
    readItems digits room (fuel + 1) text = .ok (d :: items, rest) := by
  rw [readItems, hvalue]
  simp only [bind, Except.bind, hspace, hitems]
  rfl

theorem readValue_list {c : Char} {items : List Datum} (hspace : skipSpace r = c :: text)
    (hc : c ≠ ']') (hitems : readItems digits room fuel (c :: text) = .ok (items, rest)) :
    readValue digits (room + 1) (fuel + 1) ('[' :: r) = .ok (.list items, rest) := by
  rw [readValue]
  dsimp only
  rw [hspace]
  split
  · rename_i h
    exact absurd (List.cons.inj h).1 hc
  · rw [hitems]
    rfl

theorem readFields_last {before : List (Text × Datum)} {r' r'' : List Char}
    (hkey : readString r = .ok (key, ':' :: r'))
    (hvalue : readValue digits room fuel (skipSpace r') = .ok (d, r''))
    (hspace : skipSpace r'' = '}' :: rest) :
    readFields digits room (fuel + 1) before ('"' :: r) = .ok (insertField key d before, rest) := by
  rw [readFields, hkey]
  simp only [bind, Except.bind, skipSpace_cons (show isSpace ':' = false from rfl), hvalue, hspace]
  rfl

theorem readFields_next {before fields : List (Text × Datum)} {r' r'' s : List Char}
    (hkey : readString r = .ok (key, ':' :: r'))
    (hvalue : readValue digits room fuel (skipSpace r') = .ok (d, r''))
    (hspace : skipSpace r'' = ',' :: s)
    (hfields : readFields digits room fuel (insertField key d before) (skipSpace s) = .ok (fields, rest)) :
    readFields digits room (fuel + 1) before ('"' :: r) = .ok (fields, rest) := by
  rw [readFields, hkey]
  simp only [bind, Except.bind, skipSpace_cons (show isSpace ':' = false from rfl), hvalue, hspace,
    hfields]

theorem readValue_object {fields : List (Text × Datum)} (hspace : skipSpace r = '"' :: text)
    (hfields : readFields digits room fuel [] ('"' :: text) = .ok (fields, rest)) :
    readValue digits (room + 1) (fuel + 1) ('{' :: r) = .ok (.object fields, rest) := by
  rw [readValue]
  dsimp only
  rw [hspace]
  split
  · rename_i h
    exact absurd (List.cons.inj h).1 (by decide)
  · rw [hfields]
    rfl

end Steps

theorem exists_inner {n room : Nat} (h : n + 1 ≤ room) : ∃ inner, room = inner + 1 ∧ n ≤ inner :=
  ⟨room - 1, by omega, by omega⟩

mutual

theorem readValue_write : ∀ (d : Datum) (level room fuel : Nat) (rest : List Char),
    d.Writable digits → d.height ≤ room → (d.write level).chars.length ≤ fuel → Unnumbered rest →
    readValue digits room fuel ((d.write level).chars ++ rest) = .ok (d, rest)
  | d, level, _, 0, rest, hw, _, hfuel, _ => by
    obtain ⟨c, r, hstart, -⟩ := startsValue_write hw level
    simp [hstart] at hfuel
  | .null, level, _, fuel + 1, rest, _, _, _, _ => by
    rw [write, Text.chars_plain]
    exact readValue_name fuel (bare_cons (by decide) _) rfl
  | .bool true, level, _, fuel + 1, rest, _, _, _, _ => by
    rw [write, Text.chars_plain]
    exact readValue_name fuel (bare_cons (by decide) _) rfl
  | .bool false, level, _, fuel + 1, rest, _, _, _, _ => by
    rw [write, Text.chars_plain]
    exact readValue_name fuel (bare_cons (by decide) _) rfl
  | .int n, level, _, fuel + 1, rest, hw, _, _, hrest => by
    have hcount : ¬digits < (natDigits n.natAbs).length := Nat.not_lt.2 hw
    rw [write, Text.chars_plain, readValue_numeral fuel ((startsNumeral_intText n).append rest)
      (readNumber?_intText n hrest)]
    exact if_neg hcount
  | .num x, level, _, fuel + 1, rest, hw, _, _, hrest => by
    rw [write, Text.chars_plain]
    cases hinfinite : x.isInfinite with
    | true => exact readValue_infinite fuel hinfinite rest
    | false =>
      have hfinite := Number.isFinite_of hw hinfinite
      exact readValue_numeral fuel ((startsNumeral_dataText hfinite).append rest)
        (readNumber?_dataText hfinite hrest)
  | .str s, level, _, fuel + 1, rest, hw, _, _, _ => by
    rw [write, chars_writeString hw, List.cons_append, List.append_assoc, List.singleton_append,
      readValue, readString_writeString hw]
    rfl
  | .list [], level, _, fuel + 1, rest, _, hroom, _, _ => by
    obtain ⟨inner, rfl, -⟩ := exists_inner hroom
    rw [write, Text.chars_plain]
    rfl
  | .list (d :: r), level, _, fuel + 1, rest, hw, hroom, hfuel, _ => by
    obtain ⟨inner, rfl, hinner⟩ := exists_inner hroom
    have htext : (write level (.list (d :: r))).chars ++ rest =
        '[' :: ((writeItems (level + 1) (d :: r)).chars ++
          ((newline level).chars ++ ']' :: rest)) := by
      simp [write]
    have hlength : (writeItems (level + 1) (d :: r)).chars.length ≤ fuel := by
      have := congrArg List.length htext
      simp only [List.length_append, List.length_cons] at this
      omega
    have hitems := readItems_write d r level inner fuel rest hw hinner hlength
    obtain ⟨c, text, hc, -, hbracket, -⟩ := startsValue_write hw.1 (level + 1)
    rw [htext]
    apply readValue_list _ hbracket
    · rw [skipSpace_writeItems hw.1, hc] at hitems
      exact hitems
    · rw [skipSpace_writeItems hw.1, hc]
      rfl
  | .object [], level, _, fuel + 1, rest, _, hroom, _, _ => by
    obtain ⟨inner, rfl, -⟩ := exists_inner hroom
    rw [write, Text.chars_plain]
    rfl
  | .object ((k, d) :: r), level, _, fuel + 1, rest, hw, hroom, hfuel, _ => by
    obtain ⟨inner, rfl, hinner⟩ := exists_inner hroom
    have htext : (write level (.object ((k, d) :: r))).chars ++ rest =
        '{' :: ((writeFields (level + 1) ((k, d) :: r)).chars ++
          ((newline level).chars ++ '}' :: rest)) := by
      simp [write]
    have hlength : (writeFields (level + 1) ((k, d) :: r)).chars.length ≤ fuel := by
      have := congrArg List.length htext
      simp only [List.length_append, List.length_cons] at this
      omega
    have hfields := readFields_write k d r [] level inner fuel rest hw.1 hw.2 hinner
      hlength
    rw [htext]
    apply readValue_object (skipSpace_writeFields hw.1.1 ..)
    rw [skipSpace_writeFields hw.1.1] at hfields
    exact hfields
termination_by structural _ _ _ fuel => fuel

theorem readItems_write : ∀ (d : Datum) (r : List Datum) (level room fuel : Nat)
    (rest : List Char), WritableItems digits (d :: r) → heightItems (d :: r) ≤ room →
    (writeItems (level + 1) (d :: r)).chars.length ≤ fuel →
    readItems digits room fuel (skipSpace ((writeItems (level + 1) (d :: r)).chars ++
      ((newline level).chars ++ ']' :: rest))) = .ok (d :: r, rest)
  | d, r, level, room, 0, rest, hw, _, hfuel => by
    simp [chars_writeItems, chars_newline] at hfuel
  | d, r, level, room, fuel + 1, rest, hw, hroom, hfuel => by
    obtain ⟨hfirst, hothers⟩ := Nat.max_le.1 hroom
    have hlength : (write (level + 1) d).chars.length ≤ fuel := by
      simp only [chars_writeItems, chars_newline, List.length_append, List.length_cons] at hfuel
      omega
    rw [skipSpace_writeItems hw.1]
    cases r with
    | nil =>
      rw [writeMore, if_pos rfl, List.nil_append]
      apply readItems_last
      · exact readValue_write d _ room fuel _ hw.1 hfirst hlength (unnumbered_newline _ _)
      · rw [skipSpace_newline, skipSpace_cons rfl]
    | cons e r =>
      have hmore : (writeItems (level + 1) (e :: r)).chars.length ≤ fuel := by
        rw [chars_writeItems, writeMore, if_neg (by simp)] at hfuel
        simp only [List.length_append, List.length_cons] at hfuel
        omega
      rw [writeMore, if_neg (by simp), List.cons_append]
      apply readItems_next
      · exact readValue_write d _ room fuel _ hw.1 hfirst hlength (unnumbered_cons (by decide) _)
      · exact skipSpace_cons rfl _
      · exact readItems_write e r level room fuel rest hw.2 hothers hmore
termination_by structural _ _ _ _ fuel => fuel

theorem readFields_write : ∀ (k : Text) (d : Datum) (r before : List (Text × Datum))
    (level room fuel : Nat) (rest : List Char), WritableFields digits ((k, d) :: r) →
    ((before ++ (k, d) :: r).map Prod.fst).Nodup → heightFields ((k, d) :: r) ≤ room →
    (writeFields (level + 1) ((k, d) :: r)).chars.length ≤ fuel →
    readFields digits room fuel before (skipSpace ((writeFields (level + 1) ((k, d) :: r)).chars ++
      ((newline level).chars ++ '}' :: rest))) = .ok (before ++ (k, d) :: r, rest)
  | k, d, r, before, level, room, 0, rest, hw, _, _, hfuel => by
    simp [chars_writeFields hw.1, chars_newline] at hfuel
  | k, d, r, before, level, room, fuel + 1, rest, hw, hnodup, hroom, hfuel => by
    obtain ⟨hfirst, hothers⟩ := Nat.max_le.1 hroom
    have hlength : (write (level + 1) d).chars.length ≤ fuel := by
      simp only [chars_writeFields hw.1, List.length_append, List.length_cons] at hfuel
      omega
    have hspace := (startsValue_write hw.2.1 (level + 1)).skipSpace
    have hinsert : insertField k d before = before ++ [(k, d)] := by
      apply insertField_of_not_mem
      rw [List.map_append, List.nodup_append] at hnodup
      intro hmem
      exact hnodup.2.2 k hmem k (by simp) rfl
    rw [skipSpace_writeFields hw.1]
    cases r with
    | nil =>
      rw [writeMoreFields, if_pos rfl, List.nil_append, ← hinsert]
      apply readFields_last (readString_writeString hw.1 _)
      · rw [skipSpace_blank, hspace]
        exact readValue_write d _ room fuel _ hw.2.1 hfirst hlength (unnumbered_newline _ _)
      · rw [skipSpace_newline, skipSpace_cons rfl]
    | cons f r =>
      obtain ⟨l, e⟩ := f
      have hmore : (writeFields (level + 1) ((l, e) :: r)).chars.length ≤ fuel := by
        rw [chars_writeFields hw.1, writeMoreFields, if_neg (by simp)] at hfuel
        simp only [List.length_append, List.length_cons] at hfuel
        omega
      rw [writeMoreFields, if_neg (by simp), List.cons_append]
      apply readFields_next (readString_writeString hw.1 _)
      · rw [skipSpace_blank, hspace]
        exact readValue_write d _ room fuel _ hw.2.1 hfirst hlength (unnumbered_cons (by decide) _)
      · exact skipSpace_cons rfl _
      · rw [hinsert]
        have hrest := readFields_write l e r (before ++ [(k, d)]) level room fuel rest hw.2.2
          (by simpa using hnodup) hothers hmore
        simpa using hrest
termination_by structural _ _ _ _ _ _ fuel => fuel

end

/-- A file that holds one datum is read as that datum. -/
theorem read_write {limits : Limits} {d : Datum} (h : d.Writable limits.digits)
    (hroom : d.height ≤ limits.nesting) : read limits ((d.write 0).chars ++ ['\n']) = .ok d := by
  have hstart := startsValue_write h 0
  have hvalue := readValue_write d 0 limits.nesting (2 * ((d.write 0).chars ++ ['\n']).length + 2)
    ['\n'] h hroom (by simp only [List.length_append]; omega) (unnumbered_cons (by decide) _)
  have hmark : ((d.write 0).chars ++ ['\n']).head? ≠ some (Char.ofNat 0xfeff) := by
    obtain ⟨c, r, hc, -, -, hmark⟩ := hstart
    rw [hc]
    simpa using hmark
  rw [read, if_neg hmark, hstart.skipSpace, hvalue]
  rfl

theorem escapeChar_no_return (c : Char) : '\r' ∉ escapeChar c := by
  have hhex : ∀ n, n < 32 → '\r' ∉ Text.hexDigits 4 n := by decide
  unfold escapeChar
  split
  · rename_i hc
    rcases hc with rfl | rfl <;> decide
  split
  · decide
  split
  · decide
  split
  · decide
  split
  · decide
  split
  · decide
  split
  · rename_i hc
    simp [hhex _ hc]
  · rename_i hreturn _ _ _ _
    simpa using Ne.symm hreturn

theorem lasting_writeString {s : Text} (h : s.isWhole = true) : (writeString s).Lasting := by
  constructor
  · cases s with
    | plain s => simp [writeString, Text.isWhole_eq, Function.comp_def, escape, Point.isHalf]
    | broken points hb => cases h
  · rw [chars_writeString h]
    intro hmem
    simp only [List.mem_cons, List.mem_append, List.mem_flatMap, Char.reduceEq, false_or,
      List.not_mem_nil, or_false] at hmem
    obtain ⟨c, -, hc⟩ := hmem
    exact escapeChar_no_return c hc

theorem digits_no_return {digits : List Char} (h : ∀ c ∈ digits, isAsciiDigit c = true) :
    '\r' ∉ digits := fun hmem => absurd (h _ hmem) (by decide)

theorem withSign_no_return {text : List Char} (h : '\r' ∉ text) (negative : Bool) :
    '\r' ∉ withSign negative text := by
  cases negative <;> simpa [withSign] using h

theorem lasting_intText (n : Int) : (intText n : Text).Lasting := by
  apply Text.lasting_plain
  rw [toList_intText]
  exact withSign_no_return (digits_no_return (natDigits_digits _)) _

theorem scientific_no_return (x : Decimal) : '\r' ∉ x.scientific := by
  have hdigits := digits_no_return (natDigits_digits x.digits)
  have hsize := digits_no_return
    (natDigits_digits (x.exponent + (natDigits x.digits).length - 1).natAbs)
  have htake : '\r' ∉ (natDigits x.digits).take 1 := fun h => hdigits (List.mem_of_mem_take h)
  have hdrop : '\r' ∉ (natDigits x.digits).drop 1 := fun h => hdigits (List.mem_of_mem_drop h)
  unfold Decimal.scientific
  dsimp only
  simp only [List.mem_append, List.mem_cons, not_or]
  refine ⟨⟨htake, ?_⟩, by decide, ?_, ?_⟩
  · split
    · simp
    · simpa using hdrop
  · split <;> decide
  · split
    · simpa using hsize
    · exact hsize

theorem literal_no_return {x : Decimal} (hpos : 0 < x.digits) : '\r' ∉ x.literal := by
  rcases Decimal.literal_cases hpos with ⟨whole, fraction, htext, hwhole, -, hdigits, -⟩ | htext
  · have hleft := digits_no_return hwhole.digit
    have hright := digits_no_return hdigits
    rw [htext]
    simp [hleft, hright]
  · rw [htext]
    exact scientific_no_return x

theorem lasting_dataText {x : Number} (hnan : x.isNaN = false) :
    (x.dataText fileNames : Text).Lasting := by
  apply Text.lasting_plain
  cases hinfinite : x.isInfinite with
  | true =>
    rw [dataText_of_infinite hinfinite]
    exact withSign_no_return (by decide) _
  | false =>
    rcases dataText_cases (Number.isFinite_of hnan hinfinite) with ⟨-, htext⟩ | ⟨hpos, -, htext⟩
    · rw [htext]
      exact withSign_no_return (by decide) _
    · rw [htext]
      exact withSign_no_return (literal_no_return hpos) _

theorem lasting_newline (level : Nat) : (newline level).Lasting := by
  apply Text.lasting_plain
  rw [String.toList_ofList]
  simp [List.mem_replicate]

mutual

theorem lasting_write : ∀ (d : Datum) (level : Nat), d.Writable digits → (d.write level).Lasting
  | .null, level, _ => Text.lasting_plain (by decide)
  | .bool true, level, _ => Text.lasting_plain (by decide)
  | .bool false, level, _ => Text.lasting_plain (by decide)
  | .int n, level, _ => lasting_intText n
  | .num x, level, hw => lasting_dataText hw
  | .str s, level, hw => lasting_writeString hw
  | .list [], level, _ => Text.lasting_plain (by decide)
  | .list (d :: r), level, hw => by
    have hitems := lasting_writeItems (d :: r) (level + 1) hw
    rw [write]
    · exact (((Text.lasting_plain (by decide)).append hitems).append (lasting_newline level)).append
        (Text.lasting_plain (by decide))
    · simp
  | .object [], level, _ => Text.lasting_plain (by decide)
  | .object (f :: r), level, hw => by
    have hfields := lasting_writeFields (f :: r) (level + 1) hw.1
    rw [write]
    · exact (((Text.lasting_plain (by decide)).append hfields).append
        (lasting_newline level)).append (Text.lasting_plain (by decide))
    · simp

theorem lasting_writeItems : ∀ (items : List Datum) (level : Nat), WritableItems digits items →
    (writeItems level items).Lasting
  | [], level, _ => Text.lasting_plain (by decide)
  | [d], level, hw => (lasting_newline level).append (lasting_write d level hw.1)
  | d :: e :: r, level, hw => by
    have hrest := lasting_writeItems (e :: r) level hw.2
    rw [writeItems]
    · exact (((lasting_newline level).append (lasting_write d level hw.1)).append
        (Text.lasting_plain (by decide))).append hrest
    · simp

theorem lasting_writeFields : ∀ (fields : List (Text × Datum)) (level : Nat),
    WritableFields digits fields → (writeFields level fields).Lasting
  | [], level, _ => Text.lasting_plain (by decide)
  | [(k, d)], level, hw =>
    (((lasting_newline level).append (lasting_writeString hw.1)).append
      (Text.lasting_plain (by decide))).append (lasting_write d level hw.2.1)
  | (k, d) :: f :: r, level, hw => by
    have hrest := lasting_writeFields (f :: r) level hw.2.2
    rw [writeFields]
    · exact (((((lasting_newline level).append (lasting_writeString hw.1)).append
        (Text.lasting_plain (by decide))).append (lasting_write d level hw.2.1)).append
        (Text.lasting_plain (by decide))).append hrest
    · simp

end

end Lox.Datum
