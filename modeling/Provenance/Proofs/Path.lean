/-
Names and paths.

A text that is cut at slashes gives pieces, and a piece that is not two dots is a
name that an entry of a directory can have. A path from the root through names
alone is straight; the paths that updates work with all are.

The text of a list of pieces can be cut into the same pieces again. So a key tells
which path it is the key of, and a directory in the settings which names it goes
through.
-/
import Provenance.Path.Key

set_option autoImplicit false

namespace Provenance

/-! ## Cutting and joining -/

theorem Text.splitOn_ne_nil (sep : Char) (t : Text) : Text.splitOn sep t ≠ [] := by
  cases t with
  | nil => simp [Text.splitOn]
  | cons c t =>
    rw [Text.splitOn]
    split
    · simp
    · split <;> simp

theorem Text.splitOn_of_not_mem {sep : Char} {t : Text} (h : sep ∉ t) :
    Text.splitOn sep t = [t] := by
  induction t with
  | nil => rfl
  | cons c t ih =>
    rw [List.mem_cons, not_or] at h
    rw [Text.splitOn, if_neg (Ne.symm h.1), ih h.2]

theorem Text.splitOn_append {sep : Char} {t : Text} (h : sep ∉ t) (u : Text) :
    Text.splitOn sep (t ++ sep :: u) = t :: Text.splitOn sep u := by
  induction t with
  | nil => simp [Text.splitOn]
  | cons c t ih =>
    rw [List.mem_cons, not_or] at h
    rw [List.cons_append, Text.splitOn, if_neg (Ne.symm h.1), ih h.2]

/-- A text is cut on each side of a separator by itself. -/
theorem Text.splitOn_append_cons (sep : Char) (t u : Text) :
    Text.splitOn sep (t ++ sep :: u) = Text.splitOn sep t ++ Text.splitOn sep u := by
  induction t with
  | nil => simp [Text.splitOn]
  | cons c t ih =>
    obtain ⟨piece, pieces, hpieces⟩ := List.exists_cons_of_ne_nil (Text.splitOn_ne_nil sep t)
    rw [List.cons_append, Text.splitOn, Text.splitOn, ih, hpieces]
    split <;> rfl

theorem Text.join_cons (sep t u : Text) (ts : List Text) :
    Text.join sep (t :: u :: ts) = t ++ sep ++ Text.join sep (u :: ts) := by
  simp [Text.join, List.intercalate, List.intersperse]

@[simp] theorem Text.join_singleton (sep t : Text) : Text.join sep [t] = t := by
  simp [Text.join, List.intercalate]

theorem Text.join_concat (sep : Text) (ts : List Text) (t : Text) (h : ts ≠ []) :
    Text.join sep (ts ++ [t]) = Text.join sep ts ++ sep ++ t := by
  induction ts with
  | nil => exact absurd rfl h
  | cons u ts ih =>
    -- a separator is set from the second text on
    cases ts with
    | nil => simp [Text.join, List.intercalate, List.intersperse]
    | cons v ts =>
      have hrest := ih (by simp)
      simp only [Text.join, List.intercalate, List.intersperse, List.cons_append,
        List.flatten_cons] at hrest ⊢
      rw [hrest]
      simp

theorem Text.join_append (sep : Text) {ts us : List Text} (ht : ts ≠ []) (hu : us ≠ []) :
    Text.join sep (ts ++ us) = Text.join sep ts ++ sep ++ Text.join sep us := by
  obtain ⟨u, us, rfl⟩ := List.exists_cons_of_ne_nil hu
  induction ts with
  | nil => exact absurd rfl ht
  | cons t ts ih =>
    cases ts with
    | nil => rw [Text.join_singleton, List.singleton_append, Text.join_cons]
    | cons v ts =>
      have hrest := ih (by simp)
      rw [List.cons_append] at hrest
      rw [List.cons_append, List.cons_append, Text.join_cons, hrest, Text.join_cons]
      simp only [List.append_assoc]

theorem Text.mem_join {sep : Text} {ts : List Text} {a : Char} (h : a ∈ Text.join sep ts) :
    a ∈ sep ∨ ∃ t ∈ ts, a ∈ t := by
  induction ts with
  | nil => simp [Text.join] at h
  | cons t ts ih =>
    cases ts with
    | nil => exact .inr ⟨t, by simp, by simpa using h⟩
    | cons u us =>
      rw [Text.join_cons, List.append_assoc, List.mem_append, List.mem_append] at h
      rcases h with h | h | h
      · exact .inr ⟨t, by simp, h⟩
      · exact .inl h
      · rcases ih h with h | ⟨v, hv, hav⟩
        · exact .inl h
        · exact .inr ⟨v, List.mem_cons_of_mem _ hv, hav⟩

theorem Text.mem_replaceChar {old new a : Char} {t : Text} (h : a ∈ Text.replaceChar old new t) :
    a = new ∨ a ≠ old ∧ a ∈ t := by
  obtain ⟨c, hc, rfl⟩ := List.mem_map.mp h
  by_cases hold : c = old
  · exact .inl (if_pos hold)
  · rw [if_neg hold]
    exact .inr ⟨hold, hc⟩

theorem Text.not_mem_of_mem_splitOn (sep : Char) (t : Text) :
    ∀ p ∈ Text.splitOn sep t, sep ∉ p := by
  induction t with
  | nil => simp [Text.splitOn]
  | cons c t ih =>
    intro p hp
    unfold Text.splitOn at hp
    split at hp
    · rcases List.mem_cons.mp hp with rfl | hp
      · simp
      · exact ih p hp
    -- the character belongs to the first of the pieces behind it
    · rename_i hc
      rcases hs : Text.splitOn sep t with _ | ⟨q, qs⟩
      · rw [hs] at hp
        have hpc : p = [c] := by simpa using hp
        simpa [hpc] using Ne.symm hc
      · rw [hs] at hp ih
        rcases List.mem_cons.mp hp with rfl | hp
        · simpa [Ne.symm hc] using ih q (List.mem_cons_self ..)
        · exact ih p (List.mem_cons_of_mem _ hp)

/-- Joined texts before another text are cut off it. -/
theorem Text.splitOn_join_append {sep : Char} {ts : List Text} (hne : ts ≠ [])
    (h : ∀ t ∈ ts, sep ∉ t) (u : Text) :
    Text.splitOn sep (Text.join [sep] ts ++ sep :: u) = ts ++ Text.splitOn sep u := by
  induction ts with
  | nil => exact absurd rfl hne
  | cons t ts ih =>
    have ht : sep ∉ t := h t (List.mem_cons_self ..)
    cases ts with
    | nil => rw [Text.join_singleton, Text.splitOn_append ht, List.singleton_append]
    | cons v ts =>
      have hrest := ih (by simp) fun w hw => h w (List.mem_cons_of_mem _ hw)
      rw [Text.join_cons, List.append_assoc, List.append_assoc, List.singleton_append,
        Text.splitOn_append ht, hrest]
      rfl

/-- Joined texts are cut into what they were joined from. -/
theorem Text.splitOn_join {sep : Char} {ts : List Text} (hne : ts ≠ []) (h : ∀ t ∈ ts, sep ∉ t) :
    Text.splitOn sep (Text.join [sep] ts) = ts := by
  induction ts with
  | nil => exact absurd rfl hne
  | cons t ts ih =>
    have ht : sep ∉ t := h t (List.mem_cons_self ..)
    cases ts with
    | nil => rw [Text.join_singleton, Text.splitOn_of_not_mem ht]
    | cons u us =>
      have hrest := ih (by simp) fun v hv => h v (List.mem_cons_of_mem _ hv)
      rw [Text.join_cons, List.append_assoc, List.singleton_append, Text.splitOn_append ht, hrest]

/-! ## Names -/

namespace Path

/-- Something that can stand between two slashes of a path. -/
def IsPiece (n : Text) : Prop := n ≠ [] ∧ n ≠ ['.'] ∧ '/' ∉ n

instance (n : Text) : Decidable (IsPiece n) := inferInstanceAs (Decidable (_ ∧ _ ∧ _))

/-- A name that an entry of a directory can have. -/
def IsName (n : Text) : Prop := IsPiece n ∧ n ≠ upName

instance (n : Text) : Decidable (IsName n) := inferInstanceAs (Decidable (_ ∧ _))

/-- The names in a text are pieces. -/
theorem isPiece_of_mem_namesIn {t n : Text} (h : n ∈ namesIn t) : IsPiece n := by
  obtain ⟨hmem, hn⟩ := List.mem_filter.mp h
  have hne : n ≠ [] ∧ n ≠ ['.'] := by simpa using hn
  exact ⟨hne.1, hne.2, Text.not_mem_of_mem_splitOn '/' t n hmem⟩

theorem namesIn_join {ns : List Text} (h : ∀ n ∈ ns, IsPiece n) :
    namesIn (Text.join ['/'] ns) = ns := by
  cases ns with
  | nil => rfl
  | cons n ns =>
    rw [namesIn, Text.splitOn_join (by simp) fun m hm => (h m hm).2.2]
    apply List.filter_eq_self.mpr
    intro m hm
    simpa using ⟨(h m hm).1, (h m hm).2.1⟩

/-- Pieces are told apart by their text. -/
theorem join_injective {ns ms : List Text} (hn : ∀ n ∈ ns, IsPiece n) (hm : ∀ m ∈ ms, IsPiece m)
    (h : Text.join ['/'] ns = Text.join ['/'] ms) : ns = ms := by
  rw [← namesIn_join hn, ← namesIn_join hm, h]

theorem join_ne_nil {ns : List Text} (hne : ns ≠ []) (h : ∀ n ∈ ns, IsPiece n) :
    Text.join ['/'] ns ≠ [] := by
  intro hnil
  have hnames := namesIn_join h
  rw [hnil] at hnames
  exact hne hnames.symm

/-- The text of a list of pieces begins with that of another, and a slash, if the list goes on from the
other. -/
theorem startsWith_join_iff {ns ms : List Text} (hn : ∀ n ∈ ns, IsPiece n)
    (hm : ∀ m ∈ ms, IsPiece m) (hne : ms ≠ []) :
    (Text.join ['/'] ns).startsWith (Text.join ['/'] ms ++ ['/']) = true
      ↔ ∃ below, below ≠ [] ∧ ns = ms ++ below := by
  rw [Text.startsWith, List.isPrefixOf_iff_prefix]
  constructor
  · rintro ⟨rest, hrest⟩
    rw [List.append_assoc, List.singleton_append] at hrest
    have hns : ns ≠ [] := by
      rintro rfl
      simp [Text.join, List.intercalate] at hrest
    have hcut := Text.splitOn_join_append hne (fun m hmem => (hm m hmem).2.2) rest
    rw [hrest, Text.splitOn_join hns fun n hmem => (hn n hmem).2.2] at hcut
    exact ⟨Text.splitOn '/' rest, Text.splitOn_ne_nil '/' rest, hcut⟩
  · rintro ⟨below, hbelow, rfl⟩
    rw [Text.join_append ['/'] hne hbelow]
    exact List.prefix_append _ _

/-- A text that begins with a piece is no text of an absolute path. -/
theorem anchorOf_join {ns : List Text} (h : ∀ n ∈ ns, IsPiece n) :
    anchorOf (Text.join ['/'] ns) = .here := by
  cases ns with
  | nil => rfl
  | cons n ns =>
    have hn := h n (List.mem_cons_self ..)
    -- the text begins as its first piece does, and that does not begin with a slash
    obtain ⟨c, t, hc⟩ : ∃ c t, Text.join ['/'] (n :: ns) = c :: t ∧ c ≠ '/' := by
      obtain ⟨c, n', rfl⟩ : ∃ c n', n = c :: n' := by
        cases n with
        | nil => exact absurd rfl hn.1
        | cons c n' => exact ⟨c, n', rfl⟩
      have hc : c ≠ '/' := fun hc => hn.2.2 (by simp [hc])
      cases ns with
      | nil => exact ⟨c, n', by simp, hc⟩
      | cons m ns => exact ⟨c, _, by rw [Text.join_cons]; rfl, hc⟩
    rw [hc.1, anchorOf.eq_def]
    split <;> simp_all

theorem ofText_join {ns : List Text} (h : ∀ n ∈ ns, IsPiece n) :
    ofText (Text.join ['/'] ns) = ⟨.here, ns⟩ := by
  rw [ofText, anchorOf_join h, namesIn_join h]

/-! ## Straight paths -/

/-- A path from the root through names that entries can have. -/
structure Straight (p : Path) : Prop where
  root : p.anchor = .root
  names : ∀ n ∈ p.names, IsName n

variable {p : Path} {n : Text}

theorem Straight.isAbsolute (h : p.Straight) : p.isAbsolute = true := by
  simp [Path.isAbsolute, h.root]

theorem Straight.child (h : p.Straight) (hn : IsName n) : (p.child n).Straight := by
  refine ⟨h.root, fun m hm => ?_⟩
  rcases List.mem_append.mp hm with hm | hm
  · exact h.names m hm
  · rw [List.mem_singleton.mp hm]; exact hn

theorem Straight.descend (h : p.Straight) {names : List Text} (hn : ∀ n ∈ names, IsName n) :
    (p.descend names).Straight := by
  refine ⟨h.root, fun m hm => ?_⟩
  rcases List.mem_append.mp hm with hm | hm
  · exact h.names m hm
  · exact hn m hm

theorem Straight.parent (h : p.Straight) : p.parent.Straight :=
  ⟨h.root, fun m hm => h.names m (List.dropLast_subset _ hm)⟩

theorem Straight.pieces (h : p.Straight) : ∀ n ∈ p.names, IsPiece n := fun n hn => (h.names n hn).1

/-- A straight path is the root or goes on from its parent by a name. -/
theorem Straight.cases (h : p.Straight) :
    p.names = [] ∨ ∃ n, IsName n ∧ p.parent.Straight ∧ p = p.parent.child n := by
  obtain ⟨anchor, names⟩ := p
  rcases List.eq_nil_or_concat names with rfl | ⟨names, n, rfl⟩
  · exact .inl rfl
  · refine .inr ⟨n, h.names n (by simp), h.parent, ?_⟩
    simp [Path.parent, Path.child]

@[simp] theorem parent_child (p : Path) (n : Text) : (p.child n).parent = p := by
  simp [Path.parent, Path.child]

@[simp] theorem descend_nil (p : Path) : p.descend [] = p := by simp [Path.descend]

theorem descend_cons (p : Path) (n : Text) (names : List Text) :
    p.descend (n :: names) = (p.child n).descend names := by
  simp [Path.descend, Path.child]

theorem descend_concat (p : Path) (names : List Text) (n : Text) :
    p.descend (names ++ [n]) = (p.descend names).child n := by
  simp [Path.descend, Path.child]

/-- The text of an absolute path. -/
theorem text_of_isAbsolute (h : p.isAbsolute = true) : p.text = p.bareText := by
  obtain ⟨anchor, names⟩ := p
  cases anchor with
  | here => simp [Path.isAbsolute] at h
  | root => rfl
  | twinRoot => rfl

/-! ## Keys -/

theorem relativeTo?_descend (p : Path) (ns : List Text) :
    (p.descend ns).relativeTo? p = some ⟨.here, ns⟩ := by
  rw [relativeTo?, if_pos ⟨rfl, by simp [descend]⟩]
  simp [descend]

/-- The text of a path that is seen from somewhere. -/
theorem text_here {ns : List Text} (hne : ns ≠ []) (h : ∀ n ∈ ns, IsPiece n) :
    (⟨.here, ns⟩ : Path).text = Text.join ['/'] ns := by
  rw [text, bareText]
  split
  · rename_i hnil
    exact absurd hnil (join_ne_nil hne h)
  · rfl

/-- The key of what is below the project root. -/
theorem key_descend (root : Path) {ns : List Text} (hne : ns ≠ []) (h : ∀ n ∈ ns, IsPiece n) :
    (root.descend ns).key root = .ok (Text.join ['/'] ns) := by
  rw [key, relativeTo?_descend]
  exact congrArg Except.ok (text_here hne h)

/-- What has a key is below the project root, and the key is the text of the names that lead to it. -/
theorem descend_of_key {p root : Path} {k : Text} (h : p.key root = .ok k) :
    ∃ ns, p = root.descend ns ∧ k = (⟨.here, ns⟩ : Path).text := by
  unfold key relativeTo? at h
  split at h
  · rename_i rest hrest
    split at hrest
    · rename_i hbelow
      obtain ⟨ns, hns⟩ := List.isPrefixOf_iff_prefix.mp hbelow.2
      obtain rfl := Option.some.inj hrest
      refine ⟨ns, ?_, ?_⟩
      · obtain ⟨anchor, names⟩ := p
        obtain ⟨rfl, -⟩ := hbelow
        exact congrArg (Path.mk root.anchor) hns.symm
      · rw [← Except.ok.inj h, ← hns, List.drop_left]
    · simp at hrest
  · simp at h

theorem descend_descend (p : Path) (ns ms : List Text) :
    (p.descend ns).descend ms = p.descend (ns ++ ms) := by
  simp [descend]

end Path

end Provenance
