/-
An object behind a torn beginning.

Where an object comes right behind a text that has been cut off, the two together are no document.
No number or word goes over the brace of the object, and neither does an escape; only a quoted text
does, and it ends at the first quote in the object, where a name begins that nothing can stand in
the place of. So a reader that has begun before the object is done before it, or fails, or takes the
object as a whole and then finds nothing behind it that could close what was begun.
-/
import Provenance.Proofs.Json.Accepts

set_option autoImplicit false

namespace Provenance.Json

variable {fuel depth : Nat} {c : Char} {r s w : Text} {v : Json} {items : List Json} {acc fields : Fields}

/-! ## Nothing goes over a brace -/

/-- What was left of a text is followed by what follows the text. -/
def behind {α : Type} (w : Text) : α × Text → α × Text := fun (a, r) => (a, r ++ '\x7b' :: w)

theorem span_append_stop {p : Char → Bool} (hp : p c = false) (s w : Text) :
    (s ++ c :: w).takeWhile p = s.takeWhile p ∧ (s ++ c :: w).dropWhile p = s.dropWhile p ++ c :: w := by
  induction s with
  | nil =>
    rw [List.nil_append, List.takeWhile_cons, List.dropWhile_cons, hp]
    exact ⟨rfl, rfl⟩
  | cons d s ih =>
    rw [List.cons_append, List.takeWhile_cons, List.takeWhile_cons, List.dropWhile_cons, List.dropWhile_cons]
    cases p d with
    | true => exact ⟨congrArg (d :: ·) ih.1, ih.2⟩
    | false => exact ⟨rfl, rfl⟩

theorem skipGaps_append_brace (s w : Text) : skipGaps (s ++ '\x7b' :: w) = skipGaps s ++ '\x7b' :: w :=
  (span_append_stop rfl s w).2

theorem takeDigits_append_brace (s w : Text) :
    takeDigits (s ++ '\x7b' :: w) = behind w (takeDigits s) :=
  Prod.ext (span_append_stop rfl s w).1 (span_append_stop rfl s w).2

theorem takeFraction_append_brace (s w : Text) :
    takeFraction (s ++ '\x7b' :: w) = behind w (takeFraction s) := by
  cases s with
  | nil => rfl
  | cons c s =>
    by_cases hc : c = '.'
    · subst hc
      rw [List.cons_append, takeFraction, takeFraction, takeDigits_append_brace]
      rcases takeDigits s with ⟨_ | ⟨d, ds⟩, after⟩ <;> rfl
    · simp [takeFraction, hc, behind]

theorem takeSign_append_brace (s w : Text) : takeSign (s ++ '\x7b' :: w) = behind w (takeSign s) := by
  cases s with
  | nil => rfl
  | cons c s =>
    by_cases hplus : c = '+'
    · subst hplus
      rfl
    by_cases hminus : c = '-'
    · subst hminus
      rfl
    · simp [takeSign, hplus, hminus, behind]

theorem takeExponent_append_brace (s w : Text) :
    takeExponent (s ++ '\x7b' :: w) = behind w (takeExponent s) := by
  cases s with
  | nil => rfl
  | cons e s =>
    by_cases he : e = 'e' ∨ e = 'E'
    · rw [List.cons_append, takeExponent_letter he, takeExponent_letter he, takeSign_append_brace]
      rcases takeSign s with ⟨sign, unsigned⟩
      dsimp only [behind]
      rw [takeDigits_append_brace]
      rcases takeDigits unsigned with ⟨_ | ⟨d, ds⟩, after⟩ <;> rfl
    · rw [List.cons_append, takeExponent_other he, takeExponent_other he]
      rfl

theorem takeWhole_append_brace (s w : Text) :
    takeWhole (s ++ '\x7b' :: w) = behind w (takeWhole s) := by
  cases s with
  | nil => rfl
  | cons c s =>
    by_cases hc : c = '0'
    · subst hc
      rfl
    · have hdigits := takeDigits_append_brace (c :: s) w
      simpa [takeWhole, hc] using hdigits

theorem readNumber_append_brace (negative : Bool) (s w : Text) :
    readNumber negative (s ++ '\x7b' :: w) = (readNumber negative s).map (behind w) := by
  have hwhole := takeWhole_append_brace s w
  rcases hdigits : takeWhole s with ⟨_ | ⟨d, ds⟩, afterDigits⟩
  · rw [hdigits] at hwhole
    rw [readNumber_malformed hdigits, readNumber_malformed hwhole]
    rfl
  have hfraction := takeFraction_append_brace afterDigits w
  rcases htake : takeFraction afterDigits with ⟨fraction, afterFraction⟩
  have hexponent := takeExponent_append_brace afterFraction w
  rcases htake' : takeExponent afterFraction with ⟨exponent, rest⟩
  rw [hdigits] at hwhole
  rw [htake] at hfraction
  rw [htake'] at hexponent
  by_cases hreal : fraction ++ exponent = []
  · obtain ⟨rfl, rfl⟩ := List.append_eq_nil_iff.mp hreal
    rw [readNumber_int hdigits (List.cons_ne_nil _ _) htake htake',
      readNumber_int hwhole (List.cons_ne_nil _ _) hfraction hexponent]
    split <;> rfl
  · rw [readNumber_real hdigits (List.cons_ne_nil _ _) htake htake' hreal,
      readNumber_real hwhole (List.cons_ne_nil _ _) hfraction hexponent hreal]
    rfl

theorem after?_append_brace {word : Text} (h : '\x7b' ∉ word) (s w : Text) :
    Text.after? word (s ++ '\x7b' :: w) = (Text.after? word s).map (· ++ '\x7b' :: w) := by
  induction word generalizing s with
  | nil => rfl
  | cons p word ih =>
    obtain ⟨hp, hword⟩ := List.ne_and_not_mem_of_not_mem_cons h
    cases s with
    | nil => simp [Text.after?, hp.symm]
    | cons c s =>
      rw [List.cons_append, Text.after?, Text.after?]
      split
      · exact ih hword s
      · rfl

theorem readKeyword?_append_brace (s w : Text) :
    readKeyword? (s ++ '\x7b' :: w) = (readKeyword? s).map (behind w) := by
  have hwords : ∀ word ∈ keywords, '\x7b' ∉ word.1 := by decide
  unfold readKeyword?
  generalize keywords = words at hwords
  induction words with
  | nil => rfl
  | cons word words ih =>
    rw [List.findSome?_cons, List.findSome?_cons]
    dsimp only
    rw [after?_append_brace (hwords word List.mem_cons_self)]
    cases Text.after? word.1 s with
    | none => exact ih fun word hword => hwords word (List.mem_cons_of_mem _ hword)
    | some after => rfl

theorem readScalar_append_brace (hs : s ≠ []) (w : Text) :
    readScalar (s ++ '\x7b' :: w) = (readScalar s).map (behind w) := by
  unfold readScalar
  rw [readKeyword?_append_brace]
  cases readKeyword? s with
  | some found => rfl
  | none =>
    obtain ⟨c, s, rfl⟩ := List.exists_cons_of_ne_nil hs
    by_cases hc : c = '-'
    · subst hc
      exact readNumber_append_brace true s w
    · simpa [hc] using readNumber_append_brace false (c :: s) w

theorem hexNumber?_of_mem {t : Text} (hc : hexValue? c = none) (h : c ∈ t) : hexNumber? t = none := by
  induction t using List.reverseRecOn with
  | nil => exact absurd h List.not_mem_nil
  | append_singleton t d ih =>
    rw [hexNumber?_concat]
    rcases List.mem_append.mp h with h | h
    · rw [ih h]
      rfl
    · rw [← List.mem_singleton.mp h, hc]
      cases hexNumber? t <;> rfl

theorem takeHex4_of_mem {t : Text} (hc : hexValue? c = none) (h : c ∈ t.take 4) : takeHex4 t = none := by
  match t with
  | p :: q :: r :: s :: rest =>
    have hfour : c ∈ [p, q, r, s] := h
    rw [takeHex4, hexNumber?_of_mem hc hfour]
    rfl
  | [] | [_] | [_, _] | [_, _, _] => rfl

theorem takeHex4_append_brace (s w : Text) :
    takeHex4 (s ++ '\x7b' :: w) = (takeHex4 s).map (behind w) := by
  match s with
  | p :: q :: r :: s :: rest =>
    simp only [List.cons_append, takeHex4]
    cases hexNumber? [p, q, r, s] <;> rfl
  | [] | [_] | [_, _] | [_, _, _] => exact takeHex4_of_mem (c := '\x7b') (by decide) (by simp)

/-- A unit that no escape comes after is a character by itself. -/
theorem joinSurrogates_alone (n : Nat) (h : ∀ after, s ≠ '\\' :: 'u' :: after) :
    joinSurrogates n s = (unitChar n, s) := by
  unfold joinSurrogates
  split_ifs
  · split
    · exact absurd rfl (h _)
    · rfl
  · rfl

theorem joinSurrogates_append_brace (n : Nat) (s w : Text) :
    joinSurrogates n (s ++ '\x7b' :: w) = behind w (joinSurrogates n s) := by
  by_cases h : ∃ after, s = '\\' :: 'u' :: after
  · obtain ⟨after, rfl⟩ := h
    simp only [joinSurrogates, List.cons_append, takeHex4_append_brace]
    split_ifs
    · rcases takeHex4 after with _ | ⟨low, final⟩
      · rfl
      · simp only [Option.map_some, behind]
        split_ifs
        · dsimp only
        · rfl
    · rfl
  · have halone := not_exists.mp h
    rw [joinSurrogates_alone n halone, joinSurrogates_alone]
    · rfl
    · intro after hescape
      match s with
      | [] | [_] => simp at hescape
      | p :: q :: s =>
        simp only [List.cons_append, List.cons.injEq] at hescape
        exact halone s (by rw [hescape.1, hescape.2.1])

theorem takeChar_append_brace (hs : s ≠ []) (w : Text) :
    takeChar (s ++ '\x7b' :: w) = (takeChar s).map (behind w) := by
  obtain ⟨c, s, rfl⟩ := List.exists_cons_of_ne_nil hs
  rw [List.cons_append, takeChar.eq_def, takeChar.eq_def]
  dsimp only
  split_ifs
  · cases s with
    | nil => rfl
    | cons e after =>
      by_cases he : e = 'u'
      · subst he
        simp only [List.cons_append, takeHex4_append_brace]
        rcases takeHex4 after with _ | ⟨n, final⟩
        · rfl
        · exact congrArg some (joinSurrogates_append_brace n final w)
      · simp only [List.cons_append]
        cases simpleEscape e <;> rfl
  · rfl
  · rfl

/-! ## Only a text goes over it -/

/-- What comes behind the brace and the quote of an object that begins with a name: nothing that
could follow a text or a value, and no reading of the object stops before its end. -/
structure Closed (q : Text) : Prop where
  head : ∃ c u, q = c :: u ∧ isGap c = false ∧ c ≠ ',' ∧ c ≠ ':' ∧ c ≠ ']' ∧ c ≠ '\x7d'
  all {fuel depth : Nat} {v : Json} {r : Text} :
    readValue fuel depth ('\x7b' :: '"' :: q) = .ok (v, r) → r = []

variable {q t key : Text}

/-- What is left when something that was begun before the object has been read: the object with
what was left before it, or, where a text went over the brace, what comes behind its quote. -/
def Leaves (q : Text) (r : Text) : Prop := r = q ∨ ∃ s, r = s ++ '\x7b' :: '"' :: q

/-- An object that was written is such a one, if its first name begins with a letter. -/
theorem Closed.of_render (h : v.Fits depth) (hrender : v.render = '\x7b' :: '"' :: c :: t)
    (hc : isGap c = false ∧ c ≠ ',' ∧ c ≠ ':' ∧ c ≠ ']' ∧ c ≠ '\x7d') : Closed (c :: t) where
  head := ⟨c, t, rfl, hc⟩
  all hread := by
    have hend : EndsNumber [] := by
      rintro c ⟨⟩
    have hwritten := (reads v.render.length).1 h le_rfl hend
    rw [List.append_nil, hrender] at hwritten
    exact (readValue_unique hread hwritten).2

theorem Closed.skipGaps_eq (h : Closed q) : skipGaps q = q := by
  obtain ⟨c, u, rfl, hc, -⟩ := h.head
  exact skipGaps_cons hc u

/-- If a sign comes next then it was left before the object. -/
theorem Leaves.of_cons (h : Closed q) (hleaves : Leaves q r) (hr : skipGaps r = c :: t)
    (hc : c = ',' ∨ c = ':' ∨ c = ']' ∨ c = '\x7d') : ∃ s, t = s ++ '\x7b' :: '"' :: q := by
  rcases hleaves with rfl | ⟨s, rfl⟩
  · obtain ⟨d, u, rfl, hgap, hcomma, hcolon, hbracket, hbrace⟩ := h.head
    rw [h.skipGaps_eq] at hr
    obtain rfl := (List.cons.inj hr).1
    rcases hc with rfl | rfl | rfl | rfl <;> contradiction
  · rw [skipGaps_append_brace] at hr
    cases hs : skipGaps s with
    | nil =>
      rw [hs] at hr
      obtain rfl := (List.cons.inj hr).1
      rcases hc with h | h | h | h <;> exact absurd h (by decide)
    | cons d s' =>
      rw [hs] at hr
      exact ⟨s', (List.cons.inj hr).2.symm⟩

theorem leaves_text (h : readText fuel (s ++ '\x7b' :: '"' :: q) = .ok (key, r)) : Leaves q r := by
  induction fuel generalizing s key with
  | zero => exact nomatch h
  | succ fuel ih =>
    rcases readText_ok_iff.mp h with ⟨hend, -⟩ | ⟨-, c, u, key', hchar, hread, -⟩
    · cases s with
      | nil => exact absurd (List.cons.inj hend).1 (by decide)
      | cons d s => exact .inr ⟨s, (List.cons.inj hend).2.symm⟩
    · cases s with
      | nil =>
        -- the brace belongs to the text, and the quote ends it
        obtain ⟨-, rfl⟩ := Prod.mk.inj (Option.some.inj hchar)
        cases fuel with
        | zero => exact nomatch hread
        | succ fuel =>
          rcases readText_ok_iff.mp hread with ⟨hend, -⟩ | ⟨hquote, -⟩
          · exact .inl (List.cons.inj hend).2.symm
          · exact absurd rfl hquote
      | cons d s =>
        rw [takeChar_append_brace (List.cons_ne_nil d s)] at hchar
        obtain ⟨⟨c', s'⟩, -, heq⟩ := Option.map_eq_some_iff.mp hchar
        obtain ⟨-, rfl⟩ := Prod.mk.inj heq
        exact ih hread

/-- What the readers of values leave, with that fuel, of a text and the object behind it. -/
def AllLeave (q : Text) (fuel : Nat) : Prop := ∀ {depth : Nat},
  (∀ {s v r}, s ≠ [] → readValue fuel depth (s ++ '\x7b' :: '"' :: q) = .ok (v, r) → Leaves q r)
  ∧ (∀ {s items r}, readItems fuel depth (s ++ '\x7b' :: '"' :: q) = .ok (items, r) → Leaves q r)
  ∧ ∀ {acc s fields r}, readFields fuel depth acc (s ++ '\x7b' :: '"' :: q) = .ok (fields, r) → Leaves q r

/-- A value of an array or an object that the sign `c` comes after was read before the object. -/
theorem AllLeave.value (h : Closed q) (ih : AllLeave q fuel)
    (hread : readValue fuel depth (s ++ '\x7b' :: '"' :: q) = .ok (v, r)) (hr : skipGaps r = c :: t)
    (hc : c = ',' ∨ c = ':' ∨ c = ']' ∨ c = '\x7d') : ∃ s, t = s ++ '\x7b' :: '"' :: q := by
  cases s with
  | nil =>
    rw [h.all hread] at hr
    exact absurd hr (by simp [skipGaps])
  | cons d s => exact (ih.1 (List.cons_ne_nil d s) hread).of_cons h hr hc

/-- The sign that a text begins with was there before the object was put behind it. -/
theorem exists_of_append_eq (h : s ++ '\x7b' :: w = c :: t) (hc : c ≠ '\x7b') :
    ∃ s', s = c :: s' ∧ t = s' ++ '\x7b' :: w := by
  cases s with
  | nil => exact absurd (List.cons.inj h).1.symm hc
  | cons d s => exact ⟨s, by rw [(List.cons.inj h).1], (List.cons.inj h).2.symm⟩

/-- A value that begins before the object leaves the object, or what comes behind its quote. -/
theorem AllLeave.value_succ (ih : AllLeave q fuel) (hs : s ≠ [])
    (hread : readValue (fuel + 1) depth (s ++ '\x7b' :: '"' :: q) = .ok (v, r)) : Leaves q r := by
  rcases readValue_ok_iff.mp hread with ⟨u, key, ht, htext, -⟩ | ⟨u, d, ht, -, hrest⟩ | ⟨u, d, ht, -, hrest⟩
    | ⟨-, hscalar⟩
  · obtain ⟨s', -, rfl⟩ := exists_of_append_eq ht (by decide)
    exact leaves_text htext
  · obtain ⟨s', -, rfl⟩ := exists_of_append_eq ht (by decide)
    rw [skipGaps_append_brace] at hrest
    rcases hrest with ⟨hend, -⟩ | ⟨-, items, hitems, -⟩
    · obtain ⟨s'', -, rfl⟩ := exists_of_append_eq hend (by decide)
      exact .inr ⟨s'', rfl⟩
    · exact ih.2.1 hitems
  · -- the brace is the first one of the text, as there is a character before the object
    obtain ⟨e, s, rfl⟩ := List.exists_cons_of_ne_nil hs
    rw [← (List.cons.inj ht).2, List.append_eq, skipGaps_append_brace] at hrest
    rcases hrest with ⟨hend, -⟩ | ⟨-, fields, hfields, -⟩
    · obtain ⟨s', -, rfl⟩ := exists_of_append_eq hend (by decide)
      exact .inr ⟨s', rfl⟩
    · exact ih.2.2 hfields
  · rw [readScalar_append_brace hs] at hscalar
    rcases hfound : readScalar s with e | ⟨found, r'⟩
    · rw [hfound] at hscalar
      exact nomatch hscalar
    · rw [hfound] at hscalar
      exact .inr ⟨r', (Prod.mk.inj (Except.ok.inj hscalar)).2.symm⟩

theorem AllLeave.items_succ (h : Closed q) (ih : AllLeave q fuel)
    (hread : readItems (fuel + 1) depth (s ++ '\x7b' :: '"' :: q) = .ok (items, r)) : Leaves q r := by
  obtain ⟨item, u, hitem, ⟨hend, -⟩ | ⟨w, items', hcomma, hitems, -⟩⟩ := readItems_ok_iff.mp hread
  · exact .inr (ih.value h hitem hend (by simp))
  · obtain ⟨s', rfl⟩ := ih.value h hitem hcomma (by simp)
    rw [skipGaps_append_brace] at hitems
    exact ih.2.1 hitems

theorem AllLeave.fields_succ (h : Closed q) (ih : AllLeave q fuel)
    (hread : readFields (fuel + 1) depth acc (s ++ '\x7b' :: '"' :: q) = .ok (fields, r)) : Leaves q r := by
  obtain ⟨u, key, w, x, value, y, ht, hkey, hcolon, hvalue, hrest⟩ := readFields_ok_iff.mp hread
  obtain ⟨s', -, rfl⟩ := exists_of_append_eq ht (by decide)
  -- a name that went over the brace would have to be followed by a colon
  obtain ⟨s'', rfl⟩ := (leaves_text hkey).of_cons h hcolon (by simp)
  rw [skipGaps_append_brace] at hvalue
  rcases hrest with ⟨hend, -⟩ | ⟨z, hcomma, hfields⟩
  · exact .inr (ih.value h hvalue hend (by simp))
  · obtain ⟨s₃, rfl⟩ := ih.value h hvalue hcomma (by simp)
    rw [skipGaps_append_brace] at hfields
    exact ih.2.2 hfields

theorem allLeave (h : Closed q) (fuel : Nat) : AllLeave q fuel := by
  induction fuel with
  | zero => exact ⟨(fun _ h => nomatch h), (fun h => nomatch h), (fun h => nomatch h)⟩
  | succ fuel ih => exact ⟨ih.value_succ, ih.items_succ h, ih.fields_succ h⟩

/-- **A torn beginning spoils the object behind it.** The two together are no document. -/
theorem not_read_append (h : Closed q) (hs : s ≠ []) (hgap : ∀ c ∈ s.head?, isGap c = false) :
    read (s ++ '\x7b' :: '"' :: q) ≠ .ok v := by
  have hskip : skipGaps (s ++ '\x7b' :: '"' :: q) = s ++ '\x7b' :: '"' :: q := by
    obtain ⟨d, s, rfl⟩ := List.exists_cons_of_ne_nil hs
    rw [skipGaps, List.cons_append, List.dropWhile_cons, hgap d rfl]
    rfl
  rw [read, readWithin, hskip]
  rcases hread : readValue _ _ _ with e | ⟨found, r⟩
  · simp
  · -- what is left is not blank, wherever the value ended
    have hrest : (skipGaps r).isEmpty = false := by
      rcases (allLeave h _).1 hs hread with rfl | ⟨s', rfl⟩
      · obtain ⟨c, u, hq, -⟩ := h.head
        rw [h.skipGaps_eq, hq]
        rfl
      · rw [skipGaps_append_brace, List.isEmpty_eq_false_iff]
        exact List.append_ne_nil_of_right_ne_nil _ (List.cons_ne_nil _ _)
    simp [hrest]

end Provenance.Json
