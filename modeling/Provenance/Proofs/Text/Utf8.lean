/-
Decoding what was encoded.

The bytes of a text decode to the text. Where they are cut off within a character, the decoder
gives the characters before it and one flaw, which is open: nothing is wrong with its bytes but that
more have to come. So a reader who takes encoded text in parts never meets a flaw of another kind.
-/
import Mathlib.Data.List.Infix
import Provenance.Text.Utf8

set_option autoImplicit false

namespace Provenance.Utf8

/-! ## Encoding -/

theorem encode_append (t u : Text) : encode (t ++ u) = encode t ++ encode u := by
  simp [encode]

theorem encode_cons (c : Char) (t : Text) : encode (c :: t) = String.utf8EncodeChar c ++ encode t := rfl

/-- A line feed among the bytes of a text is one in the text. -/
theorem newline_of_mem_encode {t : Text} (h : (10 : UInt8) ∈ encode t) : '\n' ∈ t := by
  obtain ⟨c, hc, hmem⟩ := List.mem_flatMap.mp h
  have hother : ∀ n : Nat, 10 ≠ n % 256 → (10 : UInt8) ≠ UInt8.ofNat n := fun n hn heq =>
    hn (by simpa using congrArg UInt8.toNat heq)
  unfold String.utf8EncodeChar at hmem
  dsimp only at hmem
  split_ifs at hmem with hone
  · have hval : 10 = c.val.toNat := by
      by_contra hne
      exact hother _ (by omega) (List.mem_singleton.mp hmem)
    obtain rfl : c = '\n' := Char.ext (UInt32.toNat.inj hval.symm)
    exact hc
  -- every byte of a longer character is 128 at least
  all_goals
    simp only [List.mem_cons, List.not_mem_nil, or_false] at hmem
    exfalso
  · rcases hmem with h | h <;> exact hother _ (by omega) h
  · rcases hmem with h | h | h <;> exact hother _ (by omega) h
  · rcases hmem with h | h | h | h <;> exact hother _ (by omega) h

/-! ## A character begun -/

variable {c : Char} {g : Begun} {t : Text} {bs more : Bytes}

/-- The character begun ends with these bytes, and is `c`. -/
def Begun.EndsAs (c : Char) : Begun → Bytes → Prop
  | _, [] => False
  | g, b :: more => (g.low ≤ b.toNat ∧ b.toNat ≤ g.high) ∧
    if g.missing = 1 then more = [] ∧ Char.ofNat (g.value * 64 + (b.toNat - 0x80)) = c
    else Begun.EndsAs c ⟨b :: g.read, g.value * 64 + (b.toNat - 0x80), g.missing - 1, 0x80, 0xBF⟩ more

/-- With its last byte the character is there. -/
theorem piecesFrom_of_endsAs (h : g.EndsAs c more) (position : Nat) (bs : Bytes) :
    piecesFrom position (some g) (more ++ bs)
      = .char c :: piecesFrom (position + more.length) none bs := by
  induction more generalizing g position with
  | nil => exact h.elim
  | cons b more ih =>
    obtain ⟨hrange, hmore⟩ := h
    rw [List.cons_append, piecesFrom, if_pos hrange]
    dsimp only
    split at hmore
    · rename_i hlast
      obtain ⟨rfl, hchar⟩ := hmore
      rw [if_pos hlast, hchar]
      rfl
    · rename_i hlast
      rw [if_neg hlast, ih hmore, List.length_cons, Nat.add_assoc, Nat.add_comm 1]

/-- Before that it is a flaw, which only more bytes can mend. -/
theorem piecesFrom_of_endsAs_append (hmore : more ≠ []) (h : g.EndsAs c (bs ++ more)) (position : Nat) :
    piecesFrom position (some g) bs
      = [.flaw ⟨g.read.reverse ++ bs, position - g.read.length, .truncated⟩] := by
  induction bs generalizing g position with
  | nil => rw [piecesFrom, List.append_nil]
  | cons b bs ih =>
    rw [List.cons_append] at h
    obtain ⟨hrange, hrest⟩ := h
    rw [piecesFrom, if_pos hrange]
    dsimp only
    split at hrest
    · exact absurd hrest.1 (List.append_ne_nil_of_right_ne_nil bs hmore)
    · rename_i hlast
      rw [if_neg hlast, ih hrest]
      simp

theorem start_two {n : Nat} (h : 2 ≤ n) (h' : n < 32) :
    start (UInt8.ofNat (n + 192)) = .begun ⟨[UInt8.ofNat (n + 192)], n, 1, 0x80, 0xBF⟩ := by
  have hn : (UInt8.ofNat (n + 192)).toNat = n + 192 := by simp; omega
  simp only [start, hn]
  rw [if_neg (by omega), if_neg (by omega), if_pos (by omega), Nat.add_sub_cancel]

theorem start_three {n : Nat} (h : n < 16) :
    start (UInt8.ofNat (n + 224)) = .begun ⟨[UInt8.ofNat (n + 224)], n, 2,
      if n = 0 then 0xA0 else 0x80, if n = 13 then 0x9F else 0xBF⟩ := by
  have hn : (UInt8.ofNat (n + 224)).toNat = n + 224 := by simp; omega
  simp only [start, hn]
  rw [if_neg (by omega), if_neg (by omega), if_neg (by omega), if_pos (by omega), Nat.add_sub_cancel]
  simp

theorem start_four {n : Nat} (h : n < 5) :
    start (UInt8.ofNat (n + 240)) = .begun ⟨[UInt8.ofNat (n + 240)], n, 3,
      if n = 0 then 0x90 else 0x80, if n = 4 then 0x8F else 0xBF⟩ := by
  have hn : (UInt8.ofNat (n + 240)).toNat = n + 240 := by simp; omega
  simp only [start, hn]
  rw [if_neg (by omega), if_neg (by omega), if_neg (by omega), if_neg (by omega), if_pos (by omega),
    Nat.add_sub_cancel]
  simp

/-- The first byte of a character is the whole of it or begins it. -/
theorem start_utf8EncodeChar (c : Char) :
    (∃ b, String.utf8EncodeChar c = [b] ∧ start b = .whole c)
      ∨ ∃ b g more, String.utf8EncodeChar c = b :: more ∧ start b = .begun g ∧ g.read = [b]
        ∧ g.EndsAs c more := by
  have hc : Char.ofNat c.val.toNat = c := Char.ofNat_toNat c
  have hvalid : c.val.toNat < 0xD800 ∨ 0xDFFF < c.val.toNat ∧ c.val.toNat < 0x110000 := c.valid
  unfold String.utf8EncodeChar
  generalize c.val.toNat = v at hc hvalid
  dsimp only
  -- the last three bytes of a character, as far as it has them, hold six bits each
  have htail : ∀ n, (UInt8.ofNat (n % 64 + 128)).toNat = n % 64 + 128 := fun n => by simp; omega
  split_ifs with hone htwo hthree
  · have hfirst : (UInt8.ofNat v).toNat = v := by simp; omega
    exact .inl ⟨_, rfl, by simp only [start, hfirst]; rw [if_pos (by omega), hc]⟩
  · refine .inr ⟨_, _, _, rfl, start_two (by omega) (by omega), rfl, ?_⟩
    simp only [Begun.EndsAs, htail, if_true, true_and]
    exact ⟨by omega, by rw [← hc]; exact congrArg Char.ofNat (by omega)⟩
  · refine .inr ⟨_, _, _, rfl, start_three (by omega), rfl, ?_⟩
    simp only [Begun.EndsAs, htail, Nat.reduceEqDiff, Nat.reduceSub, if_true, if_false, true_and]
    exact ⟨by split_ifs <;> omega, by omega, by rw [← hc]; exact congrArg Char.ofNat (by omega)⟩
  · refine .inr ⟨_, _, _, rfl, start_four (by omega), rfl, ?_⟩
    simp only [Begun.EndsAs, htail, Nat.reduceEqDiff, Nat.reduceSub, if_true, if_false, true_and]
    exact ⟨by split_ifs <;> omega, by omega, by omega, by rw [← hc]; exact congrArg Char.ofNat (by omega)⟩

/-! ## Encoded text -/

/-- The first piece of encoded text is its first character. -/
theorem piecesFrom_encodeChar (position : Nat) (c : Char) (bs : Bytes) :
    piecesFrom position none (String.utf8EncodeChar c ++ bs)
      = .char c :: piecesFrom (position + (String.utf8EncodeChar c).length) none bs := by
  rcases start_utf8EncodeChar c with ⟨b, hbytes, hstart⟩ | ⟨b, g, more, hbytes, hstart, -, hends⟩
  · rw [hbytes, List.singleton_append, piecesFrom, hstart]
    rfl
  · rw [hbytes, List.cons_append, piecesFrom, hstart]
    dsimp only
    rw [piecesFrom_of_endsAs hends, List.length_cons, Nat.add_assoc, Nat.add_comm 1]

/-- A character that is cut off is one flaw. -/
theorem piecesFrom_cut {b : UInt8} (hmore : more ≠ []) (h : String.utf8EncodeChar c = b :: bs ++ more)
    (position : Nat) :
    piecesFrom position none (b :: bs) = [.flaw ⟨b :: bs, position, .truncated⟩] := by
  rcases start_utf8EncodeChar c with ⟨b', hbytes, -⟩ | ⟨b', g, more', hbytes, hstart, hread, hends⟩
  · rw [hbytes] at h
    exact absurd (List.append_eq_nil_iff.mp (List.cons.inj h).2.symm).2 hmore
  · rw [hbytes] at h
    obtain ⟨rfl, rfl⟩ := List.cons.inj h
    rw [piecesFrom, hstart]
    dsimp only
    rw [piecesFrom_of_endsAs_append hmore hends, hread]
    simp

theorem pieces_encode (t : Text) : pieces (encode t) = t.map .char := by
  have h : ∀ position, piecesFrom position none (encode t) = t.map .char := by
    induction t with
    | nil => exact fun position => rfl
    | cons c t ih => exact fun position => by rw [encode_cons, piecesFrom_encodeChar, ih, List.map_cons]
  exact h 0

/-- What was encoded is decoded. -/
theorem decode_encode (t : Text) : decode (encode t) = .ok t := by
  rw [decode, pieces_encode]
  induction t with
  | nil => rfl
  | cons c t ih => rw [List.map_cons, strictly, ih]; rfl

/-! ## Encoded text in parts -/

/-- The bytes begin a character of which more have to come, or there are none. -/
def Cut (tail : Bytes) : Prop :=
  tail = [] ∨ ∃ c more, more ≠ [] ∧ String.utf8EncodeChar c = tail ++ more

theorem Cut.pieces_eq (h : Cut bs) (hne : bs ≠ []) (position : Nat) :
    piecesFrom position none bs = [.flaw ⟨bs, position, .truncated⟩] := by
  obtain ⟨c, more, hmore, hbytes⟩ := h.resolve_left hne
  cases bs with
  | nil => exact absurd rfl hne
  | cons b bs => exact piecesFrom_cut hmore hbytes position

/-- What begins a character and does not end it is no text. -/
theorem Cut.eq_nil (h : Cut (encode t)) : t = [] := by
  by_contra hne
  have hbytes : encode t ≠ [] := fun hnil => hne (by
    have hpieces := pieces_encode t
    rw [hnil] at hpieces
    exact List.map_eq_nil_iff.mp hpieces.symm)
  have hpieces := (pieces_encode t).symm.trans (h.pieces_eq hbytes 0)
  cases t with
  | nil => exact hne rfl
  | cons c t => exact Piece.noConfusion (List.cons.inj hpieces).1

/-- Where encoded text is cut off, the characters that are whole are told apart from the bytes of the
next. -/
theorem untilFlaw_of_prefix {rest : Bytes} (h : bs ++ rest = encode t) (position : Nat) :
    ∃ done later tail, t = done ++ later ∧ bs = encode done ++ tail ∧ tail ++ rest = encode later
      ∧ Cut tail ∧ untilFlaw (piecesFrom position none bs)
        = (done, if tail = [] then none else some ⟨tail, position + (encode done).length, .truncated⟩) := by
  induction t generalizing bs position with
  | nil =>
    obtain ⟨rfl, rfl⟩ := List.append_eq_nil_iff.mp h
    exact ⟨[], [], [], rfl, rfl, rfl, .inl rfl, rfl⟩
  | cons c t ih =>
    rw [encode_cons] at h
    rcases List.append_eq_append_iff.mp h with ⟨more, hchar, hrest⟩ | ⟨bs', rfl, hbs'⟩
    · by_cases hmore : more = []
      · subst hmore
        rw [List.append_nil] at hchar
        have hnone : [] ++ rest = encode t := hrest
        obtain ⟨done, later, tail, ht, hbytes, htail, hcut, hpieces⟩ := ih hnone (position + bs.length)
        obtain ⟨hdone, rfl⟩ := List.append_eq_nil_iff.mp hbytes.symm
        refine ⟨c :: done, later, [], by rw [ht, List.cons_append], ?_, htail, hcut, ?_⟩
        · rw [encode_cons, hdone, hchar, List.append_nil, List.append_nil]
        · have hpiece := piecesFrom_encodeChar position c []
          rw [List.append_nil, hchar] at hpiece
          rw [hpiece, untilFlaw, hpieces]
          rfl
      · have hcut : Cut bs := .inr ⟨c, more, hmore, hchar⟩
        refine ⟨[], c :: t, bs, rfl, rfl, by rw [encode_cons, hchar, hrest, List.append_assoc], hcut, ?_⟩
        by_cases hnil : bs = []
        · rw [hnil]
          rfl
        · rw [hcut.pieces_eq hnil, if_neg hnil]
          rfl
    · obtain ⟨done, later, tail, ht, hbytes, htail, hcut, hpieces⟩ :=
        ih hbs'.symm (position + (String.utf8EncodeChar c).length)
      refine ⟨c :: done, later, tail, by rw [ht, List.cons_append],
        by rw [hbytes, encode_cons, List.append_assoc], htail, hcut, ?_⟩
      rw [piecesFrom_encodeChar, untilFlaw, hpieces, encode_cons, List.length_append, Nat.add_assoc]

theorem decodePart_of_prefix {rest : Bytes} (h : bs ++ rest = encode t) :
    ∃ done later tail, t = done ++ later ∧ bs = encode done ++ tail ∧ tail ++ rest = encode later
      ∧ Cut tail ∧ decodePart bs = .ok (done, tail) := by
  obtain ⟨done, later, tail, ht, hbytes, htail, hcut, hpieces⟩ := untilFlaw_of_prefix h 0
  refine ⟨done, later, tail, ht, hbytes, htail, hcut, ?_⟩
  rw [decodePart, pieces, hpieces]
  by_cases hnil : tail = []
  · rw [if_pos hnil, hnil]
  · have hdrop : bs.drop (0 + (encode done).length) = tail := by
      rw [hbytes, Nat.zero_add, List.drop_left]
    rw [if_neg hnil]
    dsimp only
    rw [hdrop, if_pos (by simp [Flaw.isOpen])]

end Provenance.Utf8
