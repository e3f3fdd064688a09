/-
What the reader accepts.

For each function of the reader it is said once what it can have read when it succeeds: which
character came first, what was read after it and with how much fuel, and what was left. Everything
else about successes follows from that by induction. The first thing that does is that neither more
fuel nor more room for nesting takes a success away, so that there is only one way for the reader to
succeed on a text.
-/
import Provenance.Proofs.Json.RoundTrip

set_option autoImplicit false

namespace Provenance.Json

variable {fuel fuel' depth depth' : Nat} {c : Char} {t u r : Text} {s : Text} {v : Json}
  {items : List Json} {acc fields : Fields}

/-- A part that was read is put into something else. -/
theorem reading_map_ok_iff {α β : Type} {x : Reading α} {f : α → β} {b : β} :
    (x.map fun (a, r) => (f a, r)) = .ok (b, r) ↔ ∃ a, x = .ok (a, r) ∧ b = f a := by
  rcases x with e | ⟨a, r'⟩
  · simp [Except.map]
  · simp [Except.map, and_comm, eq_comm]

theorem head?_ne_of (h : ∀ w, t ≠ c :: w) : t.head? ≠ some c := fun hhead =>
  (List.head?_eq_some_iff.mp hhead).elim h

/-! ## Texts -/

/-- The character that a quoted text goes on with, and what follows it. -/
def takeChar : Text → Option (Char × Text)
  | [] => none
  | c :: rest =>
    if c = '\\' then
      match rest with
      | [] => none
      | 'u' :: after => (takeHex4 after).map fun (n, final) => joinSurrogates n final
      | e :: after => (simpleEscape e).map (·, after)
    else if c.toNat < 0x20 then none
    else some (c, rest)

/-- A text ends with a quote, or it goes on with a character. -/
theorem readText_ok_iff : readText (fuel + 1) t = .ok (s, r) ↔ t = '"' :: r ∧ s = []
    ∨ t.head? ≠ some '"' ∧ ∃ c u s', takeChar t = some (c, u) ∧ readText fuel u = .ok (s', r) ∧ s = c :: s' := by
  cases t with
  | nil => simp [readText, takeChar]
  | cons c t =>
    rw [readText.eq_def, takeChar.eq_def]
    dsimp only
    by_cases hquote : c = '"'
    · simp [hquote, eq_comm, and_comm]
    by_cases hescape : c = '\\'
    · simp only [hescape, if_true]
      cases t with
      | nil => simp
      | cons e after =>
        by_cases hunit : e = 'u'
        · subst hunit
          rcases hhex : takeHex4 after with _ | ⟨n, final⟩
          · simp [hhex]
          · rcases hjoin : joinSurrogates n final with ⟨d, u⟩
            simp [hhex, hjoin, reading_map_ok_iff]
        · rcases hsimple : simpleEscape e with _ | d
          · simp [hsimple]
          · simp [hsimple, reading_map_ok_iff]
    · by_cases hcontrol : c.toNat < 0x20
      · simp [hquote, hescape, hcontrol]
      · simp [hquote, hescape, hcontrol, reading_map_ok_iff]

/-! ## Values -/

/-- A value that holds no other and is no text: a word or a number. -/
def readScalar (t : Text) : Reading Json :=
  match readKeyword? t with
  | some found => .ok found
  | none =>
    match t with
    | '-' :: rest => readNumber true rest
    | _ => readNumber false t

theorem readValue_ok_iff : readValue (fuel + 1) depth t = .ok (v, r) ↔
    (∃ u s, t = '"' :: u ∧ readText fuel u = .ok (s, r) ∧ v = .str s)
    ∨ (∃ u d, t = '[' :: u ∧ depth = d + 1 ∧ (skipGaps u = ']' :: r ∧ v = .arr []
      ∨ (skipGaps u).head? ≠ some ']' ∧ ∃ items, readItems fuel d (skipGaps u) = .ok (items, r) ∧ v = .arr items))
    ∨ (∃ u d, t = '\x7b' :: u ∧ depth = d + 1 ∧ (skipGaps u = '\x7d' :: r ∧ v = .obj []
      ∨ (skipGaps u).head? ≠ some '\x7d'
        ∧ ∃ fields, readFields fuel d [] (skipGaps u) = .ok (fields, r) ∧ v = .obj fields))
    ∨ (t.head? ≠ some '"' ∧ t.head? ≠ some '[' ∧ t.head? ≠ some '\x7b') ∧ readScalar t = .ok (v, r) := by
  rw [readValue.eq_def]
  dsimp only
  split
  · simp [reading_map_ok_iff]
  · rename_i u
    split
    · simp
    · rename_i d after hafter
      simp [hafter, eq_comm, and_comm]
    · rename_i d hbracket
      have hends : ∀ w, skipGaps u ≠ ']' :: w := hbracket
      simp [hends, head?_ne_of hends, reading_map_ok_iff]
  · rename_i u
    split
    · simp
    · rename_i d after hafter
      simp [hafter, eq_comm, and_comm]
    · rename_i d hbrace
      have hends : ∀ w, skipGaps u ≠ '\x7d' :: w := hbrace
      simp [hends, head?_ne_of hends, reading_map_ok_iff]
  · rename_i hquote hbracket hbrace
    have htext : ∀ w, t ≠ '"' :: w := hquote
    have harray : ∀ w, t ≠ '[' :: w := hbracket
    have hobject : ∀ w, t ≠ '\x7b' :: w := hbrace
    simp [htext, harray, hobject, head?_ne_of htext, head?_ne_of harray, head?_ne_of hobject]
    rfl

theorem readItems_ok_iff : readItems (fuel + 1) depth t = .ok (items, r) ↔
    ∃ item u, readValue fuel depth t = .ok (item, u)
      ∧ (skipGaps u = ']' :: r ∧ items = [item]
        ∨ ∃ w items', skipGaps u = ',' :: w ∧ readItems fuel depth (skipGaps w) = .ok (items', r)
          ∧ items = item :: items') := by
  rw [readItems]
  rcases readValue fuel depth t with e | ⟨item, u⟩
  · simp
  · dsimp only
    split
    · rename_i w hw
      simp [hw, eq_comm, and_comm]
    · rename_i w hw
      simp [hw, reading_map_ok_iff]
    · rename_i hbracket hcomma
      have hends : ∀ w, skipGaps u ≠ ']' :: w := hbracket
      have hgoesOn : ∀ w, skipGaps u ≠ ',' :: w := hcomma
      simp [hends, hgoesOn]

theorem readFields_ok_iff : readFields (fuel + 1) depth acc t = .ok (fields, r) ↔
    ∃ u key w x value y, t = '"' :: u ∧ readText fuel u = .ok (key, w) ∧ skipGaps w = ':' :: x
      ∧ readValue fuel depth (skipGaps x) = .ok (value, y)
      ∧ (skipGaps y = '\x7d' :: r ∧ fields = acc.put key value
        ∨ ∃ z, skipGaps y = ',' :: z ∧ readFields fuel depth (acc.put key value) (skipGaps z) = .ok (fields, r)) := by
  rw [readFields.eq_def]
  dsimp only
  split
  · rename_i u
    rcases hkey : readText fuel u with e | ⟨key, w⟩
    · simp [hkey]
    dsimp only
    split
    · rename_i x hx
      rcases hvalue : readValue fuel depth (skipGaps x) with e | ⟨value, y⟩
      · simp [hkey, hx, hvalue]
      dsimp only
      split
      · rename_i z hz
        simp [hkey, hx, hvalue, hz, eq_comm, and_comm]
      · rename_i z hz
        simp [hkey, hx, hvalue, hz]
      · rename_i hbrace hcomma
        have hends : ∀ z, skipGaps y ≠ '\x7d' :: z := hbrace
        have hgoesOn : ∀ z, skipGaps y ≠ ',' :: z := hcomma
        simp [hkey, hx, hvalue, hends, hgoesOn]
    · rename_i hcolon
      have hnone : ∀ x, skipGaps w ≠ ':' :: x := hcolon
      simp [hkey, hnone]
  · rename_i hquote
    have hnone : ∀ u, t ≠ '"' :: u := hquote
    simp [hnone]

/-! ## More fuel -/

theorem readText_mono (h : readText fuel t = .ok (s, r)) (hle : fuel ≤ fuel') :
    readText fuel' t = .ok (s, r) := by
  induction fuel generalizing fuel' t s with
  | zero => exact nomatch h
  | succ fuel ih =>
    obtain ⟨fuel', rfl⟩ := Nat.exists_eq_add_one_of_ne_zero (Nat.ne_of_gt (Nat.zero_lt_of_lt hle))
    rcases readText_ok_iff.mp h with hend | ⟨hquote, c, u, s', hchar, hread, hs⟩
    · exact readText_ok_iff.mpr (.inl hend)
    · exact readText_ok_iff.mpr (.inr ⟨hquote, c, u, s', hchar, ih hread (Nat.le_of_succ_le_succ hle), hs⟩)

/-- What the readers accept with that fuel they accept with more, and with more room for nesting. -/
def Lasts (fuel : Nat) : Prop := ∀ {fuel' depth depth' : Nat}, fuel ≤ fuel' → depth ≤ depth' →
  (∀ {t v r}, readValue fuel depth t = .ok (v, r) → readValue fuel' depth' t = .ok (v, r))
  ∧ (∀ {t items r}, readItems fuel depth t = .ok (items, r) → readItems fuel' depth' t = .ok (items, r))
  ∧ ∀ {acc t fields r}, readFields fuel depth acc t = .ok (fields, r) →
    readFields fuel' depth' acc t = .ok (fields, r)

theorem lasts (fuel : Nat) : Lasts fuel := by
  induction fuel with
  | zero => exact fun _ _ => ⟨(fun h => nomatch h), (fun h => nomatch h), (fun h => nomatch h)⟩
  | succ fuel ih =>
    intro fuel' depth depth' hfuel hdepth
    obtain ⟨fuel', rfl⟩ := Nat.exists_eq_add_one_of_ne_zero (Nat.ne_of_gt (Nat.zero_lt_of_lt hfuel))
    have hle := Nat.le_of_succ_le_succ hfuel
    obtain ⟨hvalue, hitems, hfields⟩ := ih hle hdepth
    refine ⟨fun h => ?_, fun h => ?_, fun h => ?_⟩
    · rcases readValue_ok_iff.mp h with ⟨u, s, ht, hread, hv⟩ | ⟨u, d, ht, hd, hrest⟩ | ⟨u, d, ht, hd, hrest⟩
        | hscalar
      · exact readValue_ok_iff.mpr (.inl ⟨u, s, ht, readText_mono hread hle, hv⟩)
      · obtain ⟨d', rfl⟩ := Nat.exists_eq_add_one_of_ne_zero (Nat.ne_of_gt (by omega : 0 < depth'))
        obtain ⟨-, hitems', -⟩ := ih hle (by omega : d ≤ d')
        refine readValue_ok_iff.mpr (.inr (.inl ⟨u, d', ht, rfl, hrest.imp_right ?_⟩))
        rintro ⟨hbracket, items, hread, hv⟩
        exact ⟨hbracket, items, hitems' hread, hv⟩
      · obtain ⟨d', rfl⟩ := Nat.exists_eq_add_one_of_ne_zero (Nat.ne_of_gt (by omega : 0 < depth'))
        obtain ⟨-, -, hfields'⟩ := ih hle (by omega : d ≤ d')
        refine readValue_ok_iff.mpr (.inr (.inr (.inl ⟨u, d', ht, rfl, hrest.imp_right ?_⟩)))
        rintro ⟨hbrace, fields, hread, hv⟩
        exact ⟨hbrace, fields, hfields' hread, hv⟩
      · exact readValue_ok_iff.mpr (.inr (.inr (.inr hscalar)))
    · obtain ⟨item, u, hread, hrest⟩ := readItems_ok_iff.mp h
      refine readItems_ok_iff.mpr ⟨item, u, hvalue hread, hrest.imp_right ?_⟩
      rintro ⟨w, items', hw, hread', hitems'⟩
      exact ⟨w, items', hw, hitems hread', hitems'⟩
    · obtain ⟨u, key, w, x, value, y, ht, hkey, hcolon, hread, hrest⟩ := readFields_ok_iff.mp h
      refine readFields_ok_iff.mpr ⟨u, key, w, x, value, y, ht, readText_mono hkey hle, hcolon, hvalue hread,
        hrest.imp_right ?_⟩
      rintro ⟨z, hz, hread'⟩
      exact ⟨z, hz, hfields hread'⟩

/-- **There is one way to read a value**, whatever the fuel and the room for nesting. -/
theorem readValue_unique {v' : Json} {r' : Text} (h : readValue fuel depth t = .ok (v, r))
    (h' : readValue fuel' depth' t = .ok (v', r')) : v = v' ∧ r = r' := by
  have hmax := (lasts fuel (Nat.le_max_left fuel fuel') (Nat.le_max_left depth depth')).1 h
  have hmax' := (lasts fuel' (Nat.le_max_right fuel fuel') (Nat.le_max_right depth depth')).1 h'
  rw [hmax] at hmax'
  exact Prod.mk.inj (Except.ok.inj hmax')

end Provenance.Json
