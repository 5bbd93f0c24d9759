import Lox.Text
import Lox.Text.Utf8

/-!
Text in files. A whole text is a row of characters; its bytes are read back as those characters,
and lines are left as they are where there is no carriage return.
-/
namespace Lox.Text

@[simp] theorem isWhole_plain (s : String) : (plain s).isWhole = true := rfl

theorem isWhole_eq (t : Text) : t.isWhole = !t.points.any Point.isHalf := by
  cases t with
  | plain s => simp [Point.isHalf]
  | broken points h => simp [isWhole, Text.points, h]

@[simp] theorem isWhole_append (a b : Text) : (a ++ b).isWhole = (a.isWhole && b.isWhole) := by
  simp only [isWhole_eq, points_append, List.any_append, Bool.not_or]

theorem isWhole_joinWith {between : Text} {ts : List Text} (hb : between.isWhole = true)
    (h : ∀ t ∈ ts, t.isWhole = true) : (joinWith between ts).isWhole = true := by
  induction ts with
  | nil => rfl
  | cons t r ih =>
    have ht := h t (by simp)
    have hr := ih fun u hu => h u (by simp [hu])
    cases r with
    | nil => exact ht
    | cons u r =>
      rw [joinWith, isWhole_append, isWhole_append, ht, hb, hr]
      · rfl
      · simp

/-- The characters of a text, with a mark for each half of a surrogate pair. -/
def chars (t : Text) : List Char := t.points.map Point.shown

@[simp] theorem chars_plain (s : String) : (plain s).chars = s.toList := by
  simp [chars, Function.comp_def, Point.shown]

@[simp] theorem chars_append (a b : Text) : (a ++ b).chars = a.chars ++ b.chars := by
  simp [chars]

@[simp] theorem chars_ofChars (cs : List Char) : (ofChars cs).chars = cs := by
  simp [ofChars]

def utf8Char (c : Char) : List Nat := (String.utf8EncodeChar c).map UInt8.toNat

def utf8 (cs : List Char) : List Nat := cs.flatMap utf8Char

theorem decodeFrom_lead {first b : Nat} {lead : Lead} {tail rest : List Nat} {code : Nat}
    {cs : List Char} (hlead : lead? b = some lead)
    (hfollow : follow lead.following lead.bits lead.low lead.high 0 tail = .ok (code, rest))
    (hrest : decodeFrom (first + lead.following + 1) rest = .ok cs) :
    decodeFrom first (b :: tail) = .ok (Char.ofNat code :: cs) := by
  rw [decodeFrom, hlead]
  dsimp only
  split
  · rename_i hfailed
    rw [hfollow] at hfailed
    cases hfailed
  · rename_i hread
    rw [hfollow] at hread
    cases hread
    rw [hrest]

theorem follow_cons {n bits low high good b : Nat} (rest : List Nat) (h : low ≤ b ∧ b ≤ high) :
    follow (n + 1) bits low high good (b :: rest) =
      follow n (bits * 64 + b % 64) 0x80 0xbf (good + 1) rest := by
  rw [follow, if_pos h]

theorem follow_zero (bits low high good : Nat) (rest : List Nat) :
    follow 0 bits low high good rest = .ok (bits, rest) := by
  rw [follow]

/-- Bytes that are read as a character with a code: the first one promises what the others are. -/
def Spells (bytes : List Nat) (code : Nat) : Prop :=
  ∃ b tail lead, bytes = b :: tail ∧ lead? b = some lead ∧
    ∀ rest, follow lead.following lead.bits lead.low lead.high 0 (tail ++ rest) = .ok (code, rest)

section Spells

variable {n : Nat}

theorem spells_one (h : n ≤ 0x7f) : Spells [n] n := by
  have hlead : lead? n = some ⟨0, n, 0x80, 0xbf⟩ := by
    rw [lead?, if_pos (by omega)]
  exact ⟨n, [], _, rfl, hlead, fun rest => follow_zero ..⟩

theorem spells_two (hlow : 0x7f < n) (hhigh : n ≤ 0x7ff) :
    Spells [n / 64 + 0xc0, n % 64 + 0x80] n := by
  have hlead : lead? (n / 64 + 0xc0) = some ⟨1, n / 64, 0x80, 0xbf⟩ := by
    have hbits : (n / 64 + 0xc0) % 0x20 = n / 64 := by omega
    rw [lead?, if_neg (by omega), if_neg (by omega), if_pos (by omega), hbits]
  refine ⟨n / 64 + 0xc0, [n % 64 + 0x80], _, rfl, hlead, fun rest => ?_⟩
  dsimp only [List.cons_append, List.nil_append]
  rw [follow_cons _ (by omega), follow_zero]
  congr 2
  omega

/-- The second of three bytes is bounded so that the code is neither too small nor a half of a
pair. -/
theorem lead?_three (hlow : 0x7ff < n) (hhigh : n ≤ 0xffff) (hvalid : n < 0xd800 ∨ 0xdfff < n) :
    ∃ low high, lead? (n / 4096 + 0xe0) = some ⟨2, n / 4096, low, high⟩ ∧
      low ≤ n / 64 % 64 + 0x80 ∧ n / 64 % 64 + 0x80 ≤ high := by
  by_cases hfirst : n / 4096 = 0
  · exact ⟨0xa0, 0xbf, by rw [hfirst]; rfl, by omega, by omega⟩
  by_cases hsurrogate : n / 4096 = 0xd
  · exact ⟨0x80, 0x9f, by rw [hsurrogate]; rfl, by omega, by omega⟩
  · have hbits : (n / 4096 + 0xe0) % 0x10 = n / 4096 := by omega
    refine ⟨0x80, 0xbf, ?_, by omega, by omega⟩
    rw [lead?, if_neg (by omega), if_neg (by omega), if_neg (by omega), if_neg (by omega),
      if_neg (by omega), if_pos (by omega), hbits]

theorem spells_three (hlow : 0x7ff < n) (hhigh : n ≤ 0xffff) (hvalid : n < 0xd800 ∨ 0xdfff < n) :
    Spells [n / 4096 + 0xe0, n / 64 % 64 + 0x80, n % 64 + 0x80] n := by
  obtain ⟨low, high, hlead, hrange⟩ := lead?_three hlow hhigh hvalid
  refine ⟨n / 4096 + 0xe0, [n / 64 % 64 + 0x80, n % 64 + 0x80], _, rfl, hlead, fun rest => ?_⟩
  dsimp only [List.cons_append, List.nil_append]
  rw [follow_cons _ hrange, follow_cons _ (by omega), follow_zero]
  congr 2
  omega

theorem lead?_four (hlow : 0xffff < n) (hhigh : n < 0x110000) :
    ∃ low high, lead? (n / 262144 + 0xf0) = some ⟨3, n / 262144, low, high⟩ ∧
      low ≤ n / 4096 % 64 + 0x80 ∧ n / 4096 % 64 + 0x80 ≤ high := by
  by_cases hfirst : n / 262144 = 0
  · exact ⟨0x90, 0xbf, by rw [hfirst]; rfl, by omega, by omega⟩
  by_cases hlast : n / 262144 = 4
  · exact ⟨0x80, 0x8f, by rw [hlast]; rfl, by omega, by omega⟩
  · have hbits : (n / 262144 + 0xf0) % 8 = n / 262144 := by omega
    refine ⟨0x80, 0xbf, ?_, by omega, by omega⟩
    rw [lead?, if_neg (by omega), if_neg (by omega), if_neg (by omega), if_neg (by omega),
      if_neg (by omega), if_neg (by omega), if_neg (by omega), if_pos (by omega), hbits]

theorem spells_four (hlow : 0xffff < n) (hhigh : n < 0x110000) :
    Spells [n / 262144 + 0xf0, n / 4096 % 64 + 0x80, n / 64 % 64 + 0x80, n % 64 + 0x80] n := by
  obtain ⟨low, high, hlead, hrange⟩ := lead?_four hlow hhigh
  refine ⟨n / 262144 + 0xf0, [n / 4096 % 64 + 0x80, n / 64 % 64 + 0x80, n % 64 + 0x80], _, rfl,
    hlead, fun rest => ?_⟩
  dsimp only [List.cons_append, List.nil_append]
  rw [follow_cons _ hrange, follow_cons _ (by omega), follow_cons _ (by omega), follow_zero]
  congr 2
  omega

end Spells

theorem utf8Char_eq (c : Char) :
    utf8Char c =
      if c.toNat ≤ 0x7f then [c.toNat]
      else if c.toNat ≤ 0x7ff then [c.toNat / 64 + 0xc0, c.toNat % 64 + 0x80]
      else if c.toNat ≤ 0xffff then
        [c.toNat / 4096 + 0xe0, c.toNat / 64 % 64 + 0x80, c.toNat % 64 + 0x80]
      else
        [c.toNat / 262144 + 0xf0, c.toNat / 4096 % 64 + 0x80, c.toNat / 64 % 64 + 0x80,
          c.toNat % 64 + 0x80] := by
  have hvalid : c.toNat < 0xd800 ∨ 0xdfff < c.toNat ∧ c.toNat < 0x110000 := c.valid
  have hnat : c.val.toNat = c.toNat := rfl
  unfold utf8Char String.utf8EncodeChar
  dsimp only
  rw [hnat]
  split
  · simp only [List.map_cons, List.map_nil, UInt8.toNat_ofNat', List.cons.injEq, and_true]
    omega
  split
  · simp only [List.map_cons, List.map_nil, UInt8.toNat_ofNat', List.cons.injEq, and_true]
    omega
  split
  · simp only [List.map_cons, List.map_nil, UInt8.toNat_ofNat', List.cons.injEq, and_true]
    omega
  · simp only [List.map_cons, List.map_nil, UInt8.toNat_ofNat', List.cons.injEq, and_true]
    omega

theorem spells_utf8Char (c : Char) : Spells (utf8Char c) c.toNat := by
  have hvalid : c.toNat < 0xd800 ∨ 0xdfff < c.toNat ∧ c.toNat < 0x110000 := c.valid
  rw [utf8Char_eq]
  split
  · exact spells_one (by omega)
  split
  · exact spells_two (by omega) (by omega)
  split
  · exact spells_three (by omega) (by omega) (by omega)
  · exact spells_four (by omega) (by omega)

theorem decodeFrom_utf8 (first : Nat) (cs : List Char) : decodeFrom first (utf8 cs) = .ok cs := by
  induction cs generalizing first with
  | nil => rw [utf8, List.flatMap_nil, decodeFrom]
  | cons c cs ih =>
    obtain ⟨b, tail, lead, hbytes, hlead, hfollow⟩ := spells_utf8Char c
    have hcons : utf8 (c :: cs) = b :: (tail ++ utf8 cs) := by
      rw [utf8, List.flatMap_cons, hbytes]
      rfl
    rw [hcons, decodeFrom_lead hlead (hfollow _) (ih _), Char.ofNat_toNat]

/-- The bytes of a text are read as that text. -/
theorem decode_utf8 (cs : List Char) : decode (utf8 cs) = .ok cs := decodeFrom_utf8 0 cs

theorem unixLines_of_not_mem {cs : List Char} (h : '\r' ∉ cs) : unixLines cs = cs := by
  fun_induction unixLines cs with
  | case1 => rfl
  | case2 r ih => simp at h
  | case3 r hr ih => simp at h
  | case4 c r hr hc ih => rw [ih fun hmem => h (List.mem_cons_of_mem c hmem)]

/-- A text that comes back from a file as it was written. -/
structure Lasting (t : Text) : Prop where
  whole : t.isWhole = true
  noReturn : '\r' ∉ t.chars

theorem Lasting.append {a b : Text} (ha : a.Lasting) (hb : b.Lasting) : (a ++ b).Lasting where
  whole := by rw [isWhole_append, ha.whole, hb.whole]; rfl
  noReturn := by
    rw [chars_append, List.mem_append, not_or]
    exact ⟨ha.noReturn, hb.noReturn⟩

theorem lasting_plain {s : String} (h : '\r' ∉ s.toList) : (plain s).Lasting where
  whole := rfl
  noReturn := by
    rw [chars_plain]
    exact h

end Lox.Text
