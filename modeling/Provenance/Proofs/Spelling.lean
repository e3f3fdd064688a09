/-
Spellings of a location.

A location is spelled by the text of its path, or by its key. Both come to the key again, as
long as there is no backslash in them: a backslash is read for a slash, so that a name with one
falls apart. No key that a spelling comes to has a backslash, and what lies below a directory
with one in its name is not found there by its full text.
-/
import Provenance.Path.Key
import Provenance.Proofs.Path

set_option autoImplicit false

namespace Provenance

/-! ## Replaced characters -/

theorem Text.replaceChar_of_not_mem {old new : Char} {t : Text} (h : old ∉ t) :
    Text.replaceChar old new t = t := by
  have hkeeps : ∀ c ∈ t, (if c = old then new else c) = c := fun c hc =>
    if_neg fun heq : c = old => h (heq ▸ hc)
  rw [Text.replaceChar, List.map_congr_left hkeeps, List.map_id']

theorem Text.not_mem_replaceChar {old new : Char} (h : old ≠ new) (t : Text) :
    old ∉ Text.replaceChar old new t := by
  intro hmem
  rcases Text.mem_replaceChar hmem with heq | ⟨hne, -⟩
  · exact h heq
  · exact hne rfl

/-- The pieces of a text have no characters that are not in it. -/
theorem Text.mem_of_mem_splitOn {sep c : Char} {t p : Text} (hp : p ∈ Text.splitOn sep t)
    (hc : c ∈ p) : c ∈ t := by
  induction t generalizing p with
  | nil =>
    rw [Text.splitOn, List.mem_singleton] at hp
    exact absurd hc (by simp [hp])
  | cons a t ih =>
    unfold Text.splitOn at hp
    split at hp
    · rcases List.mem_cons.mp hp with rfl | hp
      · simp at hc
      · exact List.mem_cons_of_mem _ (ih hp hc)
    -- the first piece goes on behind the character
    · rcases hs : Text.splitOn sep t with _ | ⟨q, qs⟩
      · exact absurd hs (Text.splitOn_ne_nil sep t)
      · rw [hs] at hp ih
        rcases List.mem_cons.mp hp with rfl | hp
        · rcases List.mem_cons.mp hc with rfl | hc
          · exact List.mem_cons_self
          · exact List.mem_cons_of_mem _ (ih List.mem_cons_self hc)
        · exact List.mem_cons_of_mem _ (ih (List.mem_cons_of_mem _ hp) hc)

namespace Path

variable {root p : Path} {ns stack : List Text} {raw k t : Text}

/-! ## Normal paths -/

/-- An absolute path through names that entries can have. -/
structure Normal (p : Path) : Prop where
  isAbsolute : p.isAbsolute = true
  names : ∀ n ∈ p.names, IsName n

theorem Straight.normal (h : p.Straight) : p.Normal := ⟨h.isAbsolute, h.names⟩

theorem Normal.descend (h : p.Normal) (hns : ∀ n ∈ ns, IsName n) : (p.descend ns).Normal :=
  ⟨h.isAbsolute, List.forall_mem_append.mpr ⟨h.names, hns⟩⟩

theorem Normal.isPiece (h : p.Normal) : ∀ n ∈ p.names, IsPiece n := fun n hn => (h.names n hn).1

theorem namesIn_slash (t : Text) : namesIn ('/' :: t) = namesIn t := by
  simp [namesIn, Text.splitOn]

/-- Slashes before a text that begins with none are an anchor. -/
theorem anchorOf_slash (h : anchorOf t = .here) :
    anchorOf ('/' :: t) = .root ∧ anchorOf ('/' :: '/' :: t) = .twinRoot := by
  rcases t with _ | ⟨c, t⟩
  · exact ⟨rfl, rfl⟩
  · have hc : c ≠ '/' := by
      rintro rfl
      rcases t with _ | ⟨c, t⟩
      · simp [anchorOf] at h
      · unfold anchorOf at h
        split at h <;> simp_all
    exact ⟨by simp [anchorOf, hc], by simp [anchorOf, hc]⟩

/-- An absolute path is read from its text. -/
theorem ofText_text (h : p.isAbsolute = true) (hpieces : ∀ n ∈ p.names, IsPiece n) :
    ofText p.text = p := by
  obtain ⟨anchor, names⟩ := p
  obtain ⟨hanchor, hnames⟩ := Path.mk.inj (ofText_join hpieces)
  rw [text_of_isAbsolute h]
  cases anchor with
  | here => exact absurd h (by simp [isAbsolute])
  | root =>
    show (⟨anchorOf ('/' :: Text.join ['/'] names), namesIn ('/' :: Text.join ['/'] names)⟩ : Path) = _
    rw [(anchorOf_slash hanchor).1, namesIn_slash, hnames]
  | twinRoot =>
    show (⟨anchorOf ('/' :: '/' :: Text.join ['/'] names),
      namesIn ('/' :: '/' :: Text.join ['/'] names)⟩ : Path) = _
    rw [(anchorOf_slash hanchor).2, namesIn_slash, namesIn_slash, hnames]

/-! ## Parts -/

theorem parts_of_isAbsolute (h : p.isAbsolute = true) : p.parts = p.anchor.text :: p.names := by
  obtain ⟨anchor, names⟩ := p
  cases anchor with
  | here => exact absurd h (by simp [isAbsolute])
  | root => rfl
  | twinRoot => rfl

theorem ofParts_parts (h : p.isAbsolute = true) : ofParts p.parts = p := by
  obtain ⟨anchor, names⟩ := p
  cases anchor with
  | here => exact absurd h (by simp [isAbsolute])
  | root => rfl
  | twinRoot => rfl

@[simp] theorem parts_ofParts (parts : List Text) : (ofParts parts).parts = parts := by
  unfold ofParts
  split <;> rfl

theorem upName_not_mem_anchor (anchor : Anchor) : upName ∉ [anchor.text] := by
  cases anchor <;> decide

theorem Normal.upName_not_mem (h : p.Normal) : upName ∉ p.parts := by
  rw [parts_of_isAbsolute h.isAbsolute, ← List.singleton_append, List.mem_append, not_or]
  exact ⟨upName_not_mem_anchor p.anchor, fun hmem => (h.names upName hmem).2 rfl⟩

/-! ## Going through names -/

/-- What is gone through by name is some of what was on the stack, and then names that were gone
through. -/
theorem walkNames_eq_append (stack ns : List Text) :
    ∃ kept added, walkNames stack ns = kept.reverse ++ added ∧ kept <:+ stack ∧ added ⊆ ns := by
  induction ns generalizing stack with
  | nil => exact ⟨stack, [], by simp [walkNames], List.suffix_refl _, List.nil_subset _⟩
  | cons n ns ih =>
    unfold walkNames
    split
    · obtain ⟨kept, added, heq, hkept, hadded⟩ := ih stack.tail
      exact ⟨kept, added, heq, hkept.trans (List.tail_suffix stack),
        List.Subset.trans hadded (List.subset_cons_self n ns)⟩
    · obtain ⟨kept, added, heq, hkept, hadded⟩ := ih (n :: stack)
      rcases List.suffix_cons_iff.mp hkept with rfl | hkept
      · -- the name stays on the stack
        refine ⟨stack, n :: added, by simp [heq], List.suffix_refl _, ?_⟩
        exact List.cons_subset_cons n hadded
      · exact ⟨kept, added, heq, hkept, List.Subset.trans hadded (List.subset_cons_self n ns)⟩

/-- Where no two dots are gone through, nothing is taken off. -/
theorem walkNames_append (h : upName ∉ ns) (stack rest : List Text) :
    walkNames stack (ns ++ rest) = walkNames (ns.reverse ++ stack) rest := by
  induction ns generalizing stack with
  | nil => rfl
  | cons n ns ih =>
    rw [List.mem_cons, not_or] at h
    rw [List.cons_append, walkNames, if_neg (Ne.symm h.1), ih h.2]
    simp

theorem walkNames_eq_self (h : upName ∉ ns) : walkNames [] ns = ns := by
  have happend := walkNames_append h [] []
  rw [List.append_nil, List.append_nil] at happend
  rw [happend, walkNames, List.reverse_reverse]

theorem upName_not_mem_walkNames (h : upName ∉ stack) : upName ∉ walkNames stack ns := by
  induction ns generalizing stack with
  | nil => simpa [walkNames] using h
  | cons n ns ih =>
    unfold walkNames
    split
    · exact ih fun hmem => h (List.mem_of_mem_tail hmem)
    · rename_i hn
      exact ih (List.not_mem_cons_of_ne_of_not_mem (Ne.symm hn) h)

/-! ## Reading by name -/

/-- A path with its two dots resolved by name; a path of which nothing is left stays as it is. -/
def byName (p : Path) : Path :=
  match walkNames [] p.parts with
  | [] => p
  | parts => ofParts parts

theorem resolveSpelling_eq (root : Path) (raw : Text) :
    resolveSpelling root raw = byName (spelled root raw) := rfl

theorem byName_eq_self (h : p.isAbsolute = true) (hup : upName ∉ p.parts) : p.byName = p := by
  rw [byName, walkNames_eq_self hup]
  split
  · rfl
  · exact ofParts_parts h

theorem Normal.byName (h : p.Normal) : p.byName = p := byName_eq_self h.isAbsolute h.upName_not_mem

/-- Reading by name twice is reading once. -/
theorem byName_byName (p : Path) : p.byName.byName = p.byName := by
  rcases hparts : walkNames [] p.parts with _ | ⟨part, parts⟩
  · have hself : p.byName = p := by rw [Path.byName, hparts]
    rw [hself, hself]
  · have hup : upName ∉ walkNames [] p.parts := upName_not_mem_walkNames List.not_mem_nil
    have hbyName : p.byName = ofParts (part :: parts) := by rw [Path.byName, hparts]
    rw [hparts] at hup
    rw [hbyName, Path.byName, parts_ofParts, walkNames_eq_self hup]

/-- What is behind a part of the way that is as long as its beginning without two dots comes from the
rest of the way. -/
theorem subset_of_byName {before after above below : List Text} (hup : upName ∉ before)
    (hparts : p.parts = before ++ after) (h : p.byName.parts = above ++ below)
    (hlength : before.length ≤ above.length) : below ⊆ after := by
  have hsubset : ∀ kept added : List Text, kept ++ added = above ++ below →
      kept.length ≤ before.length → below ⊆ added := by
    intro kept added heq hkept
    have hsum := congrArg List.length heq
    simp only [List.length_append] at hsum
    refine (List.suffix_of_suffix_length_le (List.suffix_append above below)
      (heq ▸ List.suffix_append kept added) ?_).subset
    omega
  rcases hwalk : walkNames [] p.parts with _ | ⟨part, parts⟩
  · -- nothing is left, and the path stays as it is
    have hself : p.byName = p := by rw [Path.byName, hwalk]
    rw [hself, hparts] at h
    exact hsubset before after h (Nat.le_refl _)
  · have hbyName : p.byName.parts = walkNames [] p.parts := by
      rw [Path.byName, hwalk]
      exact parts_ofParts (part :: parts)
    rw [hbyName, hparts, walkNames_append hup, List.append_nil] at h
    obtain ⟨kept, added, heq, hkept, hadded⟩ := walkNames_eq_append before.reverse after
    rw [heq] at h
    refine List.Subset.trans (hsubset kept.reverse added h ?_) hadded
    simpa using hkept.length_le

/-! ## Spellings that come to their location -/

/-- A spelling of something below the project root comes to its key, if nothing is to be resolved. -/
theorem normalizeKey?_of_spelled (hne : ns ≠ []) (hns : ∀ n ∈ ns, IsPiece n)
    (hfixed : (root.descend ns).byName = root.descend ns) (h : spelled root raw = root.descend ns) :
    normalizeKey? root raw = some (Text.join ['/'] ns) := by
  rw [normalizeKey?, resolveSpelling_eq, h, hfixed, relativeTo?_descend, Option.map_some,
    text_here hne hns]

/-- The key of a location comes to itself, if it has no backslash. -/
theorem normalizeKey?_key (hne : ns ≠ []) (hns : ∀ n ∈ ns, IsPiece n)
    (hfixed : (root.descend ns).byName = root.descend ns) (h : '\\' ∉ Text.join ['/'] ns) :
    normalizeKey? root (Text.join ['/'] ns) = some (Text.join ['/'] ns) := by
  refine normalizeKey?_of_spelled hne hns hfixed ?_
  rw [spelled, Text.replaceChar_of_not_mem h, ofText_join hns]
  rfl

/-- The text of the path comes to the key, if it has no backslash. -/
theorem normalizeKey?_text (hroot : root.Normal) (hne : ns ≠ []) (hns : ∀ n ∈ ns, IsPiece n)
    (hfixed : (root.descend ns).byName = root.descend ns) (h : '\\' ∉ (root.descend ns).text) :
    normalizeKey? root (root.descend ns).text = some (Text.join ['/'] ns) := by
  refine normalizeKey?_of_spelled hne hns hfixed ?_
  have habsolute : (root.descend ns).isAbsolute = true := hroot.isAbsolute
  rw [spelled, Text.replaceChar_of_not_mem h,
    ofText_text habsolute (List.forall_mem_append.mpr ⟨hroot.isPiece, hns⟩), join, if_pos habsolute]

/-! ## What spellings come to -/

/-- What a spelling comes to below the project root goes through names of the spelling; where the
spelling is absolute, the way to the project root does too. -/
theorem names_of_resolveSpelling (hroot : root.Normal) (h : resolveSpelling root raw = root.descend ns) :
    ns ⊆ namesIn (raw.replaceChar '\\' '/')
      ∧ ((ofText (raw.replaceChar '\\' '/')).isAbsolute = true →
        root.names ⊆ namesIn (raw.replaceChar '\\' '/')) := by
  have hbelow : (spelled root raw).byName.parts = [root.anchor.text] ++ (root.names ++ ns) := by
    rw [← resolveSpelling_eq, h]
    exact parts_of_isAbsolute hroot.isAbsolute
  by_cases habsolute : (ofText (raw.replaceChar '\\' '/')).isAbsolute = true
  · have hparts : (spelled root raw).parts
        = [(ofText (raw.replaceChar '\\' '/')).anchor.text] ++ namesIn (raw.replaceChar '\\' '/') := by
      rw [spelled, join, if_pos habsolute, parts_of_isAbsolute habsolute]
      rfl
    have hsubset := subset_of_byName (upName_not_mem_anchor _) hparts hbelow (Nat.le_refl _)
    exact ⟨fun n hn => hsubset (List.mem_append_right _ hn),
      fun _ n hn => hsubset (List.mem_append_left _ hn)⟩
  · have hparts : (spelled root raw).parts = root.parts ++ namesIn (raw.replaceChar '\\' '/') := by
      rw [spelled, join, if_neg habsolute, parts_of_isAbsolute hroot.isAbsolute]
      exact parts_of_isAbsolute (p := ⟨root.anchor, _⟩) hroot.isAbsolute
    rw [← List.append_assoc] at hbelow
    refine ⟨subset_of_byName hroot.upName_not_mem hparts hbelow ?_, fun h => absurd h habsolute⟩
    rw [parts_of_isAbsolute hroot.isAbsolute]
    exact Nat.le_refl _

/-- The names in a text have no characters that are not in it. -/
theorem not_mem_of_mem_namesIn {n : Text} {c : Char} (h : n ∈ namesIn t) (hc : c ∉ t) : c ∉ n :=
  fun hmem => hc (Text.mem_of_mem_splitOn (List.mem_filter.mp h).1 hmem)

/-- The names of an absolute path have no characters that are not in its text. -/
theorem Normal.not_mem_of_not_mem_text {n : Text} {c : Char} (h : p.Normal) (hc : c ∉ p.text)
    (hn : n ∈ p.names) : c ∉ n := by
  have hnames : namesIn p.text = p.names := congrArg Path.names (ofText_text h.isAbsolute h.isPiece)
  exact not_mem_of_mem_namesIn (hnames ▸ hn) hc

/-- A name of a spelling has no backslash. -/
theorem backslash_not_mem {n : Text} (h : n ∈ namesIn (raw.replaceChar '\\' '/')) : '\\' ∉ n :=
  not_mem_of_mem_namesIn h (Text.not_mem_replaceChar (by decide) raw)

/-- What a spelling comes to is the key of a location that is read by name, of names of the spelling. -/
theorem exists_of_normalizeKey? (h : normalizeKey? root raw = some k) :
    ∃ ns, k = (⟨.here, ns⟩ : Path).text ∧ resolveSpelling root raw = root.descend ns := by
  obtain ⟨rest, hrest, rfl⟩ := Option.map_eq_some_iff.mp h
  have hkey : (resolveSpelling root raw).key root = .ok rest.text := by rw [key, hrest]
  obtain ⟨ns, hns, hk⟩ := descend_of_key hkey
  exact ⟨ns, hk, hns⟩

theorem byName_of_resolveSpelling (h : resolveSpelling root raw = p) : p.byName = p := by
  rw [← h, resolveSpelling_eq, byName_byName]

/-- The text of a path has no backslash if no name has. -/
theorem backslash_not_mem_text (h : ∀ n ∈ p.names, '\\' ∉ n) : '\\' ∉ p.text := by
  unfold text
  split
  · decide
  · intro hmem
    rcases List.mem_append.mp hmem with hanchor | hjoin
    · revert hanchor
      cases p.anchor <;> decide
    · rcases Text.mem_join hjoin with hslash | ⟨n, hn, hmem⟩
      · exact absurd hslash (by decide)
      · exact h n hn hmem

/-- No key that a spelling comes to has a backslash. -/
theorem backslash_not_mem_of_normalizeKey? (hroot : root.Normal) (h : normalizeKey? root raw = some k) :
    '\\' ∉ k := by
  obtain ⟨ns, rfl, hns⟩ := exists_of_normalizeKey? h
  exact backslash_not_mem_text fun n hn => backslash_not_mem ((names_of_resolveSpelling hroot hns).1 hn)

/-- The key of a location comes to itself exactly if it has no backslash. -/
theorem normalizeKey?_key_iff (hroot : root.Normal) (hne : ns ≠ []) (hns : ∀ n ∈ ns, IsPiece n)
    (hfixed : (root.descend ns).byName = root.descend ns) :
    normalizeKey? root (Text.join ['/'] ns) = some (Text.join ['/'] ns) ↔ '\\' ∉ Text.join ['/'] ns :=
  ⟨backslash_not_mem_of_normalizeKey? hroot, normalizeKey?_key hne hns hfixed⟩

/-- The text of an absolute path is read as an absolute path, backslashes for slashes or not. -/
theorem isAbsolute_ofText_replaceChar (h : p.isAbsolute = true) :
    (ofText (p.text.replaceChar '\\' '/')).isAbsolute = true := by
  obtain ⟨t, ht⟩ : ∃ t, p.text = '/' :: t := by
    obtain ⟨anchor, names⟩ := p
    cases anchor with
    | here => exact absurd h (by simp [isAbsolute])
    | root => exact ⟨_, rfl⟩
    | twinRoot => exact ⟨_, rfl⟩
  have hslash : ∀ t, anchorOf ('/' :: t) ≠ .here := by
    intro t
    unfold anchorOf
    split <;> simp_all
  rw [ht]
  exact decide_eq_true (hslash _)

theorem namesIn_text_here (hns : ∀ n ∈ ns, IsPiece n) : namesIn (⟨.here, ns⟩ : Path).text = ns := by
  cases ns with
  | nil => decide
  | cons n ns => rw [text_here (List.cons_ne_nil n ns) hns, namesIn_join hns]

/-- The text of its path comes to the key exactly if it has no backslash, on the way to the project root
either. -/
theorem normalizeKey?_text_iff (hroot : root.Normal) (hne : ns ≠ []) (hns : ∀ n ∈ ns, IsPiece n)
    (hfixed : (root.descend ns).byName = root.descend ns) :
    normalizeKey? root (root.descend ns).text = some (Text.join ['/'] ns)
      ↔ '\\' ∉ (root.descend ns).text := by
  refine ⟨fun h => ?_, normalizeKey?_text hroot hne hns hfixed⟩
  obtain ⟨ns', hk, hresolve⟩ := exists_of_normalizeKey? h
  obtain ⟨hbelow, habove⟩ := names_of_resolveSpelling hroot hresolve
  have hsame : ns = ns' := by
    rw [← namesIn_join hns, hk, namesIn_text_here fun n hn => isPiece_of_mem_namesIn (hbelow hn)]
  have hroot_names := habove (isAbsolute_ofText_replaceChar (p := root.descend ns) hroot.isAbsolute)
  refine backslash_not_mem_text fun n hn => ?_
  have hname : n ∈ namesIn ((root.descend ns).text.replaceChar '\\' '/') :=
    (List.mem_append.mp hn).elim (fun h => hroot_names h) fun h => hbelow (hsame ▸ h)
  exact backslash_not_mem hname

end Path

end Provenance
