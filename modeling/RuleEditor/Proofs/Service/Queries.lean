import RuleEditor.Proofs.Address.Segments
import RuleEditor.Service.Url

/-!
# Queries read back

The query of a URL is written from parameters and read back as the same parameters: a character comes back from its
bytes, a byte from its two digits, a word from its characters, and the parameters from the pieces between the marks
that no word holds.
-/
namespace RuleEditor

namespace Text

/-! ### Characters and their bytes -/

namespace Utf8

variable {n : Nat} {p : Begun} {b : UInt8} {bs : List UInt8}

theorem toNat_ofNat_byte (h : n < 256) : (UInt8.ofNat n).toNat = n := by
  rw [UInt8.toNat_ofNat']
  exact Nat.mod_eq_of_lt h

theorem pieces_first (hs : n < 256) (hl : begin n = .inr p) :
    pieces none (UInt8.ofNat n :: bs) = pieces (some p) bs := by
  simp only [pieces, toNat_ofNat_byte hs, hl]

theorem pieces_inner (hs : n < 256) (hw : p.least ≤ n ∧ n ≤ p.greatest) (hm : 1 < p.missing) :
    pieces (some p) (UInt8.ofNat n :: bs) =
      pieces (some ⟨64 * p.bits + (n - 0x80), p.missing - 1, 0x80, 0xBF⟩) bs := by
  simp only [pieces, toNat_ofNat_byte hs, hw, and_self, if_true, Nat.not_le.mpr hm, if_false]

theorem pieces_last (hs : n < 256) (hw : p.least ≤ n ∧ n ≤ p.greatest) (hl : p.missing ≤ 1) :
    pieces (some p) (UInt8.ofNat n :: bs) = some (Char.ofNat (64 * p.bits + (n - 0x80))) :: pieces none bs := by
  simp only [pieces, toNat_ofNat_byte hs, hw, and_self, if_true, hl]

/-- A character is read from its bytes as soon as the last of them is there. The cases are those of the encoding: how
many bytes the number of the character takes. -/
theorem pieces_encodeChar (c : Char) (bs : List UInt8) :
    pieces none (String.utf8EncodeChar c ++ bs) = some c :: pieces none bs := by
  have valid : c.toNat < 0xD800 ∨ 0xDFFF < c.toNat ∧ c.toNat < 0x110000 := c.valid
  have back : Char.ofNat c.toNat = c := Char.ofNat_toNat c
  have number : c.val.toNat = c.toNat := rfl
  unfold String.utf8EncodeChar
  simp only [number]
  generalize c.toNat = n at valid back
  split
  · have ascii : n < 0x80 := by omega
    simp only [List.cons_append, List.nil_append, pieces, toNat_ofNat_byte (show n < 256 by omega), begin, ascii,
      if_true, back]
  split
  · have first : begin (n / 64 % 32 + 192) = .inr ⟨n / 64, 1, 0x80, 0xBF⟩ := by
      simp only [begin]
      rw [if_neg (by omega), if_neg (by omega), if_pos (by omega), show n / 64 % 32 + 192 - 0xC0 = n / 64 by omega]
    simp only [List.cons_append, List.nil_append]
    rw [pieces_first (by omega) first, pieces_last (by omega) (by simp only; omega) (by simp only; omega),
      show 64 * (n / 64) + (n % 64 + 128 - 128) = n by omega, back]
  split
  · have first : begin (n / 4096 % 16 + 224) = .inr ⟨n / 4096, 2, if n / 4096 % 16 + 224 = 0xE0 then 0xA0 else 0x80,
        if n / 4096 % 16 + 224 = 0xED then 0x9F else 0xBF⟩ := by
      simp only [begin]
      rw [if_neg (by omega), if_neg (by omega), if_neg (by omega), if_pos (by omega),
        show n / 4096 % 16 + 224 - 0xE0 = n / 4096 by omega]
    simp only [List.cons_append, List.nil_append]
    rw [pieces_first (by omega) first,
      pieces_inner (by omega) ⟨by simp only; split <;> omega, by simp only; split <;> omega⟩ (by simp only; omega),
      pieces_last (by omega) (by simp only; omega) (by simp only; omega),
      show 64 * (64 * (n / 4096) + (n / 64 % 64 + 128 - 128)) + (n % 64 + 128 - 128) = n by omega, back]
  · have first : begin (n / 262144 % 8 + 240) = .inr ⟨n / 262144, 3,
        if n / 262144 % 8 + 240 = 0xF0 then 0x90 else 0x80, if n / 262144 % 8 + 240 = 0xF4 then 0x8F else 0xBF⟩ := by
      simp only [begin]
      rw [if_neg (by omega), if_neg (by omega), if_neg (by omega), if_neg (by omega), if_pos (by omega),
        show n / 262144 % 8 + 240 - 0xF0 = n / 262144 by omega]
    simp only [List.cons_append, List.nil_append]
    rw [pieces_first (by omega) first,
      pieces_inner (by omega) ⟨by simp only; split <;> omega, by simp only; split <;> omega⟩ (by simp only; omega),
      pieces_inner (by omega) (by simp only; omega) (by simp only; omega),
      pieces_last (by omega) (by simp only; omega) (by simp only; omega),
      show 64 * (64 * (64 * (n / 262144) + (n / 4096 % 64 + 128 - 128)) + (n / 64 % 64 + 128 - 128)) +
        (n % 64 + 128 - 128) = n by omega, back]

theorem pieces_encode (cs : List Char) : pieces none (encode cs) = cs.map some := by
  induction cs with
  | nil => rfl
  | cons c cs ih =>
      rw [encode, List.flatMap_cons, pieces_encodeChar, List.map_cons]
      exact congrArg (some c :: ·) ih

theorem decode?_encode (cs : List Char) : decode? (encode cs) = some cs := by
  rw [decode?, pieces_encode]
  induction cs with
  | nil => rfl
  | cons c cs ih =>
      rw [List.map_cons, List.mapM_cons, ih]
      rfl

theorem decodeLenient_encode (cs : List Char) : decodeLenient (encode cs) = cs := by
  rw [decodeLenient, pieces_encode, List.map_map]
  exact List.map_id' cs

end Utf8

/-! ### Words -/

namespace Percent

/-- How a character stands in a word. -/
def written (c : Char) : List Char := if c = ' ' then ['+'] else encode isUnreserved [c]

/-- The blank that a plus sign stands for. -/
def plain (c : Char) : Char := if c = '+' then ' ' else c

/-- A character that stands in words: one that is never encoded, the sign of a byte or that of a blank. -/
def InWord (c : Char) : Prop := isUnreserved c ∨ c = '%' ∨ c = '+'

instance (c : Char) : Decidable (InWord c) := inferInstanceAs (Decidable (_ ∨ _))

theorem encodeWord_eq (s : String) : encodeWord s = s.toList.flatMap written := rfl

theorem decodeWord_eq (cs : List Char) : decodeWord cs = String.ofList (decode (cs.map plain)) := rfl

theorem digit_unreserved : ∀ n < 16, isUnreserved (hexDigit n).toUpper := by decide

theorem digit_value : ∀ n < 16, hexValue? (hexDigit n).toUpper = some n := by decide

theorem encodeByte_eq (b : UInt8) :
    encodeByte b = ['%', (hexDigit (b.toNat / 16 % 16)).toUpper, (hexDigit (b.toNat % 16)).toUpper] := rfl

/-- A byte is read from its two digits. -/
theorem bytes_encodeByte (b : UInt8) (rest : List Char) : bytes (encodeByte b ++ rest) = b :: bytes rest := by
  have small : b.toNat < 256 := b.toNat_lt
  have value : 16 * (b.toNat / 16 % 16) + b.toNat % 16 = b.toNat := by omega
  simp only [encodeByte_eq, List.cons_append, List.nil_append, bytes, digit_value _ (Nat.mod_lt _ (by decide)), value,
    UInt8.ofNat_toNat]

theorem bytes_encodeBytes (bs : List UInt8) (rest : List Char) :
    bytes (bs.flatMap encodeByte ++ rest) = bs ++ bytes rest := by
  induction bs with
  | nil => rfl
  | cons b bs ih => rw [List.flatMap_cons, List.append_assoc, bytes_encodeByte, ih, List.cons_append]

theorem bytes_cons {c : Char} (h : c ≠ '%') (rest : List Char) :
    bytes (c :: rest) = Utf8.encode [c] ++ bytes rest := by
  rw [bytes]
  intro a b more same
  exact absurd same h

theorem inWord_of_mem_encodeByte {b : UInt8} {c : Char} (h : c ∈ encodeByte b) : isUnreserved c ∨ c = '%' := by
  rw [encodeByte_eq] at h
  simp only [List.mem_cons, List.not_mem_nil, or_false] at h
  rcases h with rfl | rfl | rfl
  · exact .inr rfl
  · exact .inl (digit_unreserved _ (Nat.mod_lt _ (by decide)))
  · exact .inl (digit_unreserved _ (Nat.mod_lt _ (by decide)))

theorem encode_eq (c : Char) :
    encode isUnreserved [c] = if isUnreserved c then [c] else (Utf8.encode [c]).flatMap encodeByte := by
  simp only [encode, List.flatMap_cons, List.flatMap_nil, List.append_nil]

theorem inWord_of_mem_encode {c x : Char} (h : x ∈ encode isUnreserved [c]) : isUnreserved x ∨ x = '%' := by
  rw [encode_eq] at h
  split at h
  · rename_i kept
    rw [List.mem_singleton] at h
    exact .inl (h ▸ kept)
  · obtain ⟨b, -, within⟩ := List.mem_flatMap.mp h
    exact inWord_of_mem_encodeByte within

theorem inWord_of_mem_encodeWord {s : String} {x : Char} (h : x ∈ encodeWord s) : InWord x := by
  rw [encodeWord_eq] at h
  obtain ⟨c, -, within⟩ := List.mem_flatMap.mp h
  unfold written at within
  split at within
  · rw [List.mem_singleton] at within
    exact .inr (.inr within)
  · rcases inWord_of_mem_encode within with kept | percent
    · exact .inl kept
    · exact .inr (.inl percent)

theorem plain_of_unreserved {c : Char} (h : isUnreserved c ∨ c = '%') : plain c = c := by
  have other : c ≠ '+' := by
    rintro rfl
    revert h
    decide
  exact if_neg other

/-- A character is read from the way it is written in a word. -/
theorem bytes_written (c : Char) (rest : List Char) :
    bytes ((written c).map plain ++ rest) = Utf8.encode [c] ++ bytes rest := by
  by_cases blank : c = ' '
  · subst blank
    exact bytes_cons (by decide) rest
  have plainly : (encode isUnreserved [c]).map plain = encode isUnreserved [c] := by
    conv => rhs; rw [← List.map_id (encode isUnreserved [c])]
    exact List.map_congr_left fun x within => plain_of_unreserved (inWord_of_mem_encode within)
  rw [written, if_neg blank, plainly, encode_eq]
  split
  · rename_i kept
    exact bytes_cons (by rintro rfl; revert kept; decide) rest
  · exact bytes_encodeBytes _ rest

theorem bytes_encodeWord (cs : List Char) : bytes ((cs.flatMap written).map plain) = Utf8.encode cs := by
  induction cs with
  | nil => rfl
  | cons c cs ih =>
      rw [List.flatMap_cons, List.map_append, bytes_written, ih]
      simp only [Utf8.encode, List.flatMap_cons, List.flatMap_nil, List.append_nil]

/-- A word is read back from the way it is written. -/
theorem decodeWord_encodeWord (s : String) : decodeWord (encodeWord s) = s := by
  rw [decodeWord_eq, encodeWord_eq, decode, bytes_encodeWord, Utf8.decodeLenient_encode, String.ofList_toList]

/-! ### Parameters -/

/-- A parameter as a piece of a query. -/
def piece (p : String × String) : List Char := encodeWord p.1 ++ '=' :: encodeWord p.2

theorem writeQuery_eq (ps : List (String × String)) : writeQuery ps = ['&'].intercalate (ps.map piece) := rfl

theorem not_mem_piece (p : String × String) : '&' ∉ piece p := by
  have apart : ∀ s, '&' ∉ encodeWord s := fun s h => absurd (inWord_of_mem_encodeWord h) (by decide)
  simp only [piece, List.mem_append, List.mem_cons, apart, or_false, false_or]
  decide

theorem pieces_writeQuery (p : String × String) (ps : List (String × String)) :
    pieces '&' (writeQuery (p :: ps)) = (p :: ps).map piece := by
  induction ps generalizing p with
  | nil =>
      rw [writeQuery_eq, List.map_singleton, List.intercalate_singleton, pieces_of_not_mem (not_mem_piece p)]
  | cons q ps ih =>
      rw [writeQuery_eq, List.map_cons, List.map_cons, List.intercalate_cons_cons, List.append_assoc]
      exact (pieces_append (not_mem_piece p)).trans (congrArg (piece p :: ·) (ih q))

/-- No word holds an equals sign, so the first one in a piece ends its name. -/
theorem piece_split (p : String × String) :
    (piece p).takeWhile (· ≠ '=') = encodeWord p.1 ∧ (piece p).dropWhile (· ≠ '=') = '=' :: encodeWord p.2 := by
  have apart : ∀ c ∈ encodeWord p.1, decide (c ≠ '=') = true := by
    intro c within
    rw [decide_eq_true_iff]
    rintro rfl
    exact absurd (inWord_of_mem_encodeWord within) (by decide)
  constructor
  · rw [piece, List.takeWhile_append_of_pos apart]
    simp
  · rw [piece, List.dropWhile_append_of_pos apart]
    simp

theorem read_piece (p : String × String) :
    (decodeWord ((piece p).takeWhile (· ≠ '=')), decodeWord (((piece p).dropWhile (· ≠ '=')).drop 1)) = p := by
  rw [(piece_split p).1, (piece_split p).2, List.drop_succ_cons, List.drop_zero, decodeWord_encodeWord,
    decodeWord_encodeWord]

/-- The parameters are read back from their query. -/
theorem readQuery_writeQuery (ps : List (String × String)) : readQuery (writeQuery ps) = ps := by
  cases ps with
  | nil => rfl
  | cons p ps =>
      have filled : ((p :: ps).map piece).filter (!·.isEmpty) = (p :: ps).map piece := by
        rw [List.filter_eq_self]
        intro cs within
        obtain ⟨q, -, rfl⟩ := List.mem_map.mp within
        simp [piece]
      rw [readQuery, pieces_writeQuery, filled, List.map_map]
      exact (List.map_congr_left fun q _ => read_piece q).trans (List.map_id _)

/-! ### Lengths -/

theorem written_ne_nil (c : Char) : written c ≠ [] := by
  unfold written
  split
  · exact List.cons_ne_nil _ _
  · rw [encode_eq]
    split
    · exact List.cons_ne_nil _ _
    · intro empty
      cases bytes : String.utf8EncodeChar c with
      | nil => exact String.utf8EncodeChar_ne_nil bytes
      | cons b bs =>
          simp only [Utf8.encode, List.flatMap_cons, List.flatMap_nil, List.append_nil, bytes, encodeByte_eq] at empty
          cases empty

theorem length_le_encodeWord (s : String) : s.toList.length ≤ (encodeWord s).length := by
  rw [encodeWord_eq]
  induction s.toList with
  | nil => exact Nat.le_refl 0
  | cons c cs ih =>
      have := List.length_pos_iff.mpr (written_ne_nil c)
      rw [List.flatMap_cons, List.length_append, List.length_cons]
      omega

/-- A query is longer than each value in it. -/
theorem length_lt_writeQuery {p : String × String} {ps : List (String × String)} (h : p ∈ ps) :
    p.2.toList.length < (writeQuery ps).length := by
  have value : p.2.toList.length < (piece p).length := by
    have := length_le_encodeWord p.2
    rw [piece, List.length_append, List.length_cons]
    omega
  induction ps with
  | nil => exact absurd h List.not_mem_nil
  | cons q ps ih =>
      rw [writeQuery_eq] at ih ⊢
      cases ps with
      | nil =>
          rw [List.mem_singleton.mp h] at value ⊢
          rw [List.map_singleton, List.intercalate_singleton]
          exact value
      | cons r ps =>
          rw [List.map_cons, List.map_cons, List.intercalate_cons_cons, List.length_append, List.length_append]
          rw [List.map_cons] at ih
          rcases List.mem_cons.mp h with rfl | h
          · omega
          · have := ih h
            omega

end Percent

end Text

/-! ### Queries of URLs -/

namespace Url

theorem bounds_of_alphanum {c : Char} (h : c.isAlphanum) :
    0x30 ≤ c.toNat ∧ c.toNat ≤ 0x7A ∧ c.toNat ≠ 0x3C ∧ c.toNat ≠ 0x3E := by
  have spelled : c.isAlphanum = (decide ('A'.val ≤ c.val ∧ c.val ≤ 'Z'.val) ||
      decide ('a'.val ≤ c.val) && decide (c.val ≤ 'z'.val) ||
      decide ('0'.val ≤ c.val) && decide (c.val ≤ '9'.val)) := rfl
  simp only [spelled, Bool.or_eq_true, Bool.and_eq_true, decide_eq_true_iff, UInt32.le_iff_toNat_le] at h
  have ranges : (65 ≤ c.toNat ∧ c.toNat ≤ 90 ∨ 97 ≤ c.toNat ∧ c.toNat ≤ 122) ∨ 48 ≤ c.toNat ∧ c.toNat ≤ 57 := h
  omega

theorem inQuery_of_alphanum {c : Char} (h : c.isAlphanum) : inQuery c := by
  have bounds := bounds_of_alphanum h
  have apart : c ∉ ['"', '#', '<', '>'] := by
    intro within
    simp only [List.mem_cons, List.not_mem_nil, or_false] at within
    rcases within with rfl | rfl | rfl | rfl <;> revert bounds <;> decide
  have graphic : isGraphic c := by
    simp only [isGraphic, Bool.and_eq_true, decide_eq_true_iff]
    omega
  simp only [inQuery, graphic, apart, not_false_iff, decide_true, Bool.and_self]

theorem inQuery_of_inWord {c : Char} (h : Text.Percent.InWord c) : inQuery c := by
  rcases h with kept | rfl | rfl
  · simp only [Text.Percent.isUnreserved, Bool.or_eq_true, beq_iff_eq] at kept
    rcases kept with (((alphanum | rfl) | rfl) | rfl) | rfl
    · exact inQuery_of_alphanum alphanum
    all_goals decide
  · decide
  · decide

theorem inQuery_of_mem_piece {p : String × String} {c : Char} (h : c ∈ Text.Percent.piece p) : inQuery c := by
  rcases List.mem_append.mp h with within | within
  · exact inQuery_of_inWord (Text.Percent.inWord_of_mem_encodeWord within)
  · rcases List.mem_cons.mp within with rfl | within
    · decide
    · exact inQuery_of_inWord (Text.Percent.inWord_of_mem_encodeWord within)

theorem inQuery_of_mem_writeQuery {ps : List (String × String)} {c : Char} (h : c ∈ Text.Percent.writeQuery ps) :
    inQuery c := by
  rw [Text.Percent.writeQuery_eq] at h
  induction ps with
  | nil => exact absurd h List.not_mem_nil
  | cons p ps ih =>
      cases ps with
      | nil =>
          rw [List.map_singleton, List.intercalate_singleton] at h
          exact inQuery_of_mem_piece h
      | cons q ps =>
          rw [List.map_cons, List.map_cons, List.intercalate_cons_cons, List.append_assoc] at h
          rcases List.mem_append.mp h with within | within
          · exact inQuery_of_mem_piece within
          · rcases List.mem_cons.mp within with rfl | within
            · decide
            · exact ih within

theorem encode_of_kept {keep : Char → Bool} {cs : List Char} (h : ∀ c ∈ cs, keep c) :
    Text.Percent.encode keep cs = cs := by
  induction cs with
  | nil => rfl
  | cons c cs ih =>
      have rest : Text.Percent.encode keep cs = cs := ih fun d within => h d (List.mem_cons_of_mem c within)
      rw [Text.Percent.encode] at rest ⊢
      rw [List.flatMap_cons, rest, if_pos (h c List.mem_cons_self), List.singleton_append]

/-- A query of parameters stands in a URL as it is written. -/
theorem encode_writeQuery (ps : List (String × String)) :
    Text.Percent.encode inQuery (Text.Percent.writeQuery ps) = Text.Percent.writeQuery ps :=
  encode_of_kept fun _ => inQuery_of_mem_writeQuery

variable {u v : Url} {ps : List (String × String)}

/-- The URL with the query of some parameters. -/
def asking (u : Url) (ps : List (String × String)) : Url :=
  { u with query := some (String.ofList (Text.Percent.writeQuery ps)) }

@[simp] theorem plainPath_asking : (u.asking ps).plainPath = u.plainPath := rfl

/-- The parameters that a URL asks with are the ones it was given. -/
@[simp] theorem parameters_asking : (u.asking ps).parameters = ps := by
  simp only [parameters, asking, Option.map_some, Option.getD_some, String.toList_ofList,
    Text.Percent.readQuery_writeQuery]

/-- Where a URL takes some parameters, it takes all that fit into a query. -/
theorem withParameters?_eq (h : u.withParameters? ps = some v) (qs : List (String × String)) :
    u.withParameters? qs =
      if maxLength < (Text.Percent.writeQuery qs).length then none else some (v.asking qs) := by
  unfold withParameters? ofParts? at h ⊢
  cases kept : authority? u.authority.toList with
  | none =>
      rw [kept] at h
      cases h
  | some authority =>
      rw [kept] at h
      simp only [Option.bind_eq_bind, Option.bind_some, Option.getD_some, Option.map_some, encode_writeQuery] at h ⊢
      split at h
      · cases h
      · rename_i proper
        rw [if_neg proper]
        split at h
        · cases h
        · rename_i fits
          have short : ¬maxLength < u.path.toList.length := fun long =>
            fits (by simp only [long, decide_true, Bool.true_or])
          cases h
          simp only [short, decide_false, Bool.false_or, decide_eq_true_iff, asking]

end Url

end RuleEditor
