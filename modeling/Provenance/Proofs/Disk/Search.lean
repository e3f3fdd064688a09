/-
Where paths lead.

A search goes down a tree with the trees it has passed in hand. What it finds
depends on nothing but what the tree holds at each location, and here it is told
that way: `walk` is the search with a location in the place of the trees, and
every later file speaks of walks. A walk that comes to a place is told step by step
as well (`Walks`), and what holds of all such walks is proved along the steps.

Two facts carry what is proved about updates. A walk to a name is a walk to the
directory it is in and one step more (`walk_concat`), so that what a call finds at
a path follows from what is found at its parent. And what leads through
directories and links keeps leading there as long as these stay, whatever happens
to the files beside them (`walk_keeps`).
-/
import Provenance.Proofs.Disk.Legal

set_option autoImplicit false

namespace Provenance

/-- Whether the entry is a symbolic link. -/
def Entry.isLink : Entry → Bool
  | .link _ => true
  | _ => false

theorem Entry.isLink_of_isDirectory {e : Entry} (h : e.isDirectory = true) : e.isLink = false := by
  cases e <;> first | rfl | simp [isDirectory] at h

namespace Disk

/-! ## Walks -/

/-- The location that the target of a link starts at; the link is in the directory `l`. -/
def linkFrom (l : Location) (target : Path) : Location := if target.isAbsolute then [] else l

/-- Whether a name is too long to be looked up. -/
def IsLong (n : Text) : Prop := maxNameBytes < (Utf8.encode n).length

instance (n : Text) : Decidable (IsLong n) := inferInstanceAs (Decidable (_ < _))

/-- Goes through names from a location; `onLink` goes through the names that a link leads to. -/
def walkWith (t : Tree) (follow : Bool) (onLink : Location → List Text → Except Errno Place) :
    Location → List Text → Except Errno Place
  | l, [] =>
    match t.find? l with
    | some e => .ok (.present l e)
    | none => .error .notFound
  | l, name :: rest =>
    if !t.isDirectory l then .error .notDirectory
    else if name = Path.upName then walkWith t follow onLink l.dropLast rest
    else if IsLong name then .error .nameTooLong
    else match t.find? (l ++ [name]) with
      | none => if rest.isEmpty then .ok (.absent l name) else .error .notFound
      | some (.link target) =>
        if rest.isEmpty && !follow then .ok (.present (l ++ [name]) (.link target))
        else onLink (linkFrom l target) (target.names ++ rest)
      | some _ => walkWith t follow onLink (l ++ [name]) rest

/-- Goes through names from a location; the number bounds the links that are followed. -/
def walk (t : Tree) (follow : Bool) : Nat → Location → List Text → Except Errno Place
  | 0 => walkWith t follow fun _ _ => .error .tooManyLinks
  | links + 1 => walkWith t follow (walk t follow links)

/-- What is done with a link when so many may still be followed. -/
def walkLink (t : Tree) (follow : Bool) : Nat → Location → List Text → Except Errno Place
  | 0 => fun _ _ => .error .tooManyLinks
  | links + 1 => walk t follow links

theorem walk_eq (t : Tree) (follow : Bool) (k : Nat) :
    walk t follow k = walkWith t follow (walkLink t follow k) := by
  cases k <;> rfl

theorem walk_nil (t : Tree) (follow : Bool) (k : Nat) (l : Location) :
    walk t follow k l []
      = match t.find? l with
        | some e => .ok (.present l e)
        | none => .error .notFound := by
  rw [walk_eq, walkWith]

/-- One step of a walk. -/
theorem walk_cons (t : Tree) (follow : Bool) (k : Nat) (l : Location) (name : Text)
    (rest : List Text) :
    walk t follow k l (name :: rest)
      = if !t.isDirectory l then .error .notDirectory
        else if name = Path.upName then walk t follow k l.dropLast rest
        else if IsLong name then .error .nameTooLong
        else match t.find? (l ++ [name]) with
          | none => if rest.isEmpty then .ok (.absent l name) else .error .notFound
          | some (.link target) =>
            if rest.isEmpty && !follow then .ok (.present (l ++ [name]) (.link target))
            else walkLink t follow k (linkFrom l target) (target.names ++ rest)
          | some _ => walk t follow k (l ++ [name]) rest := by
  rw [walk_eq, walkWith]

/-! ## A search is a walk -/

/-- A way whose trees are those of the tree it is a way down. -/
def Way.Valid (root : Tree) : Way → Prop
  | [] => True
  | (n, t) :: w => (Way.tree root w).child? n = some t ∧ Way.Valid root w

@[simp] theorem Way.location_cons (n : Text) (t : Tree) (w : Way) :
    Way.location ((n, t) :: w) = w.location ++ [n] := by simp [Way.location]

theorem Way.at?_location {root : Tree} {w : Way} (h : Way.Valid root w) :
    root.at? w.location = some (w.tree root) := by
  induction w with
  | nil => rfl
  | cons nt w ih =>
    obtain ⟨n, t⟩ := nt
    have hchild : (Way.tree root w).child? n = some t := h.1
    rw [Way.location_cons, Tree.at?_append, ih h.2, Option.bind_some, Tree.at?_cons, hchild]
    rfl

theorem Way.find?_location {root : Tree} {w : Way} (h : Way.Valid root w) :
    root.find? w.location = some (w.tree root).entry := by
  simp [Tree.find?, Way.at?_location h]

theorem Way.find?_child {root : Tree} {w : Way} (h : Way.Valid root w) (n : Text) :
    root.find? (w.location ++ [n]) = ((w.tree root).child? n).map Tree.entry := by
  rw [Tree.find?_append, Way.at?_location h, Option.bind_some, Tree.find?_cons]
  cases (w.tree root).child? n <;> rfl

theorem Way.valid_tail {root : Tree} {w : Way} (h : Way.Valid root w) :
    Way.Valid root w.tail := by
  cases w with
  | nil => exact h
  | cons nt w => exact h.2

theorem Way.location_tail (w : Way) : Way.location w.tail = w.location.dropLast := by
  cases w with
  | nil => rfl
  | cons nt w => rw [Way.location_cons, List.dropLast_concat]; rfl

theorem targetStart_location (w : Way) (target : Path) :
    (targetStart w target).location = linkFrom w.location target := by
  rw [targetStart, linkFrom]
  split <;> rfl

theorem targetStart_valid {root : Tree} {w : Way} (h : Way.Valid root w) (target : Path) :
    Way.Valid root (targetStart w target) := by
  unfold targetStart
  split
  · trivial
  · exact h

theorem searchWith_eq {root : Tree} {follow : Bool}
    {onLink : Way → List Text → Except Errno Place}
    (onLink' : Location → List Text → Except Errno Place)
    (hlink : ∀ w names, Way.Valid root w → onLink w names = onLink' w.location names)
    {w : Way} (hw : Way.Valid root w) (names : List Text) :
    searchWith root follow onLink w names = walkWith root follow onLink' w.location names := by
  -- the way in hand and the location say the same, and both go down by the same name
  induction names generalizing w with
  | nil => rw [searchWith, walkWith, Way.find?_location hw]
  | cons name rest ih =>
    have hdir : root.isDirectory w.location = (w.tree root).entry.isDirectory := by
      simp [Tree.isDirectory, Way.find?_location hw]
    rw [searchWith, walkWith, hdir, Way.find?_child hw, ih (Way.valid_tail hw), Way.location_tail]
    cases hc : (w.tree root).child? name with
    | none => rfl
    | some t =>
      have hinto := ih (w := (name, t) :: w) ⟨hc, hw⟩
      rw [Way.location_cons] at hinto
      cases he : t.entry with
      | link target =>
        simp only [Option.map_some, he, hlink _ _ (targetStart_valid hw target),
          targetStart_location]
        rfl
      | _ => simp only [Option.map_some, he, hinto]; rfl

theorem search_eq_walk (root : Tree) (follow : Bool) (k : Nat) {w : Way}
    (hw : Way.Valid root w) (names : List Text) :
    search root follow k w names = walk root follow k w.location names := by
  induction k generalizing w names with
  | zero =>
    exact searchWith_eq (fun _ _ => .error .tooManyLinks) (fun _ _ _ => rfl) hw names
  | succ k ih =>
    exact searchWith_eq (walk root follow k) (fun _ names h => ih h names) hw names

/-- Where an absolute path leads. -/
theorem place_absolute (d : Disk) (follow : Bool) {p : Path} (h : p.isAbsolute = true) :
    d.place follow p
      = if isOverlong p then .error .nameTooLong else walk d.tree follow maxLinks [] p.names := by
  unfold place
  split
  · rfl
  · simp only [start?, h, if_true, wayFrom?]
    exact search_eq_walk d.tree follow maxLinks (w := []) trivial p.names

theorem valid_wayFrom? {root t : Tree} {w w' : Way} {l : Location} (hw : Way.Valid root w)
    (ht : Way.tree root w = t) (h : wayFrom? w t l = some w') : Way.Valid root w' := by
  induction l generalizing w t with
  | nil => exact Option.some.inj h ▸ hw
  | cons n l ih =>
    unfold wayFrom? at h
    split at h
    · rename_i c hc
      exact ih (w := (n, c) :: w) ⟨ht ▸ hc, hw⟩ rfl h
    · simp at h

/-! ## What a walk comes to -/

section Walks

variable {t t' : Tree} {follow : Bool} {k : Nat} {l l' : Location} {names : List Text} {n : Text}
  {e e' : Entry} {p : Place}

/-- The way up from a directory leads to one. -/
theorem isDirectory_dropLast (ht : t.Legal) (hl : t.isDirectory l = true) :
    t.isDirectory l.dropLast = true := by
  rcases List.eq_nil_or_concat l with rfl | ⟨l, n, rfl⟩
  · exact hl
  · rw [List.concat_eq_append, List.dropLast_concat]
    apply ht.isDirectory_of_below (m := [n]) (by simp)
    simpa using Tree.isSome_find?_of_isDirectory hl

/-- A link is looked up from a directory. -/
theorem isDirectory_linkFrom (ht : t.Legal) (hl : t.isDirectory l = true) (target : Path) :
    t.isDirectory (linkFrom l target) = true := by
  unfold linkFrom
  split
  · exact ht.isDirectory_nil
  · exact hl

theorem not_link_of_isDirectory (hl : t.isDirectory l = true) (he : t.find? l = some e) :
    e.isLink = false :=
  Entry.isLink_of_isDirectory (by simpa [Tree.isDirectory, he] using hl)

/-- Induction along a walk: on the names to go, and where a link is followed on the number of links,
since the names that it stands for may be more than there were. -/
theorem walk_induction {P : Nat → Location → List Text → Prop} (nil : ∀ k l, P k l [])
    (cons : ∀ k l name rest, (∀ l', P k l' rest) → (∀ j l' names, k = j + 1 → P j l' names) →
      P k l (name :: rest)) (k : Nat) (l : Location) (names : List Text) : P k l names := by
  -- the number of links decreases where a link is followed, the names everywhere else
  induction k generalizing l names with
  | zero =>
    induction names generalizing l with
    | nil => exact nil 0 l
    | cons name rest ih => exact cons 0 l name rest ih fun j _ _ hj => absurd hj (by simp)
  | succ k ihk =>
    induction names generalizing l with
    | nil => exact nil (k + 1) l
    | cons name rest ih =>
      apply cons (k + 1) l name rest ih
      intro j l' names hj
      obtain rfl : k = j := by omega
      exact ihk l' names

/-- A link that is followed without an error uses up one of those that may be. -/
theorem walkLink_ok (h : walkLink t follow k l names = .ok p) :
    ∃ j, k = j + 1 ∧ walk t follow j l names = .ok p := by
  cases k with
  | zero => simp [walkLink] at h
  | succ j => exact ⟨j, rfl, h⟩

/-- A walk that comes to a place, name by name. -/
inductive Walks (t : Tree) (follow : Bool) : Nat → Location → List Text → Place → Prop
  | here {k : Nat} {l : Location} {e : Entry} (he : t.find? l = some e) :
    Walks t follow k l [] (.present l e)
  | up {k : Nat} {l : Location} {rest : List Text} {p : Place} (hdir : t.isDirectory l = true)
    (h : Walks t follow k l.dropLast rest p) : Walks t follow k l (Path.upName :: rest) p
  | absent {k : Nat} {l : Location} {n : Text} (hdir : t.isDirectory l = true)
    (hup : n ≠ Path.upName) (hshort : ¬ IsLong n) (hnone : t.find? (l ++ [n]) = none) :
    Walks t follow k l [n] (.absent l n)
  | atLink {k : Nat} {l : Location} {n : Text} {target : Path} (hdir : t.isDirectory l = true)
    (hup : n ≠ Path.upName) (hshort : ¬ IsLong n)
    (hlink : t.find? (l ++ [n]) = some (.link target)) (hstop : follow = false) :
    Walks t follow k l [n] (.present (l ++ [n]) (.link target))
  | through {k : Nat} {l : Location} {n : Text} {target : Path} {rest : List Text} {p : Place}
    (hdir : t.isDirectory l = true) (hup : n ≠ Path.upName) (hshort : ¬ IsLong n)
    (hlink : t.find? (l ++ [n]) = some (.link target)) (hgo : rest = [] → follow = true)
    (h : Walks t follow k (linkFrom l target) (target.names ++ rest) p) :
    Walks t follow (k + 1) l (n :: rest) p
  | on {k : Nat} {l : Location} {n : Text} {e : Entry} {rest : List Text} {p : Place}
    (hdir : t.isDirectory l = true) (hup : n ≠ Path.upName) (hshort : ¬ IsLong n)
    (he : t.find? (l ++ [n]) = some e) (hlink : e.isLink = false)
    (h : Walks t follow k (l ++ [n]) rest p) : Walks t follow k l (n :: rest) p

theorem walks_of_walk (h : walk t follow k l names = .ok p) : Walks t follow k l names p := by
  -- one case for each way in which a step can end without an error
  induction k, l, names using walk_induction with
  | nil k l =>
    rw [walk_nil] at h
    split at h
    · rename_i e he
      obtain rfl := Except.ok.inj h
      exact .here he
    · simp at h
  | cons k l name rest ih ihk =>
    rw [walk_cons] at h
    split at h
    · simp at h
    rename_i hdir
    have hdir : t.isDirectory l = true := by simpa using hdir
    split at h
    · rename_i hup
      subst hup
      exact .up hdir (ih _ h)
    rename_i hup
    split at h
    · simp at h
    rename_i hshort
    split at h
    · rename_i hnone
      split at h
      · rename_i hrest
        obtain rfl := Except.ok.inj h
        obtain rfl := List.isEmpty_iff.mp hrest
        exact .absent hdir hup hshort hnone
      · simp at h
    · rename_i target hlink
      split at h
      · rename_i hstop
        obtain rfl := Except.ok.inj h
        simp only [Bool.and_eq_true, List.isEmpty_iff, Bool.not_eq_true'] at hstop
        obtain ⟨rfl, hstop⟩ := hstop
        exact .atLink hdir hup hshort hlink hstop
      · rename_i hgo
        obtain ⟨j, rfl, h⟩ := walkLink_ok h
        exact .through hdir hup hshort hlink (by simpa using hgo) (ihk j _ _ rfl h)
    · rename_i e hnot he
      refine .on hdir hup hshort he ?_ (ih _ h)
      cases e with
      | link target => exact absurd rfl (hnot target)
      | _ => rfl

theorem Walks.walk_eq (h : Walks t follow k l names p) : walk t follow k l names = .ok p := by
  induction h with
  | here he => rw [walk_nil, he]
  | up hdir h ih => rw [walk_cons, if_neg (by simp [hdir]), if_pos rfl, ih]
  | absent hdir hup hshort hnone =>
    rw [walk_cons, if_neg (by simp [hdir]), if_neg hup, if_neg hshort, hnone]
    rfl
  | atLink hdir hup hshort hlink hstop =>
    rw [walk_cons, if_neg (by simp [hdir]), if_neg hup, if_neg hshort, hlink]
    simp [hstop]
  | through hdir hup hshort hlink hgo h ih =>
    rw [walk_cons, if_neg (by simp [hdir]), if_neg hup, if_neg hshort, hlink]
    dsimp only
    rw [if_neg (by simpa using hgo)]
    exact ih
  | @on k l n e rest p hdir hup hshort he hlink h ih =>
    rw [walk_cons, if_neg (by simp [hdir]), if_neg hup, if_neg hshort, he]
    cases e with
    | link target => simp [Entry.isLink] at hlink
    | _ => exact ih

/-- What a walk finds is there. -/
theorem walk_present (h : walk t follow k l names = .ok (.present l' e)) :
    t.find? l' = some e := by
  have hw := walks_of_walk h
  clear h
  generalize hp : Place.present l' e = p at hw
  induction hw with
  | here he =>
    obtain ⟨rfl, rfl⟩ := Place.present.inj hp
    exact he
  | absent => simp at hp
  | atLink _ _ _ hlink _ =>
    obtain ⟨rfl, rfl⟩ := Place.present.inj hp
    exact hlink
  | up _ _ ih | through _ _ _ _ _ _ ih | on _ _ _ _ _ _ ih => exact ih hp

/-- A walk that follows links does not end at one. -/
theorem walk_not_link (ht : t.Legal) (hl : ∀ e, t.find? l = some e → e.isLink = false)
    (h : walk t true k l names = .ok (.present l' e)) : e.isLink = false := by
  have hw := walks_of_walk h
  clear h
  generalize hp : Place.present l' e = p at hw
  -- all steps but the last start at a directory, so that only the start itself could be a link
  induction hw with
  | here he =>
    obtain ⟨rfl, rfl⟩ := Place.present.inj hp
    exact hl _ he
  | absent => simp at hp
  | atLink _ _ _ _ hstop => simp at hstop
  | up hdir _ ih => exact ih (fun _ => not_link_of_isDirectory (isDirectory_dropLast ht hdir)) hp
  | through hdir _ _ _ _ _ ih =>
    exact ih (fun _ => not_link_of_isDirectory (isDirectory_linkFrom ht hdir _)) hp
  | on _ _ _ he hlink _ ih =>
    refine ih (fun e₁ he₁ => ?_) hp
    rw [he] at he₁
    exact Option.some.inj he₁ ▸ hlink

/-- A name that a walk misses is one that an entry can have, in a directory that is there. -/
theorem walk_absent (ht : t.Legal) (hnames : ∀ m ∈ names, Path.IsPiece m)
    (h : walk t follow k l names = .ok (.absent l' n)) :
    t.isDirectory l' = true ∧ t.find? (l' ++ [n]) = none ∧ Path.IsName n ∧ ¬ IsLong n := by
  have hw := walks_of_walk h
  clear h
  generalize hp : Place.absent l' n = p at hw
  induction hw with
  | here => simp at hp
  | atLink => simp at hp
  | absent hdir hup hshort hnone =>
    obtain ⟨rfl, rfl⟩ := Place.absent.inj hp
    exact ⟨hdir, hnone, ⟨hnames _ (List.mem_cons_self ..), hup⟩, hshort⟩
  | up _ _ ih | on _ _ _ _ _ _ ih =>
    exact ih (fun m hm => hnames m (List.mem_cons_of_mem _ hm)) hp
  | through _ _ _ hlink _ _ ih =>
    refine ih (fun m hm => ?_) hp
    rcases List.mem_append.mp hm with hm | hm
    · exact ht.target hlink m hm
    · exact hnames m (List.mem_cons_of_mem _ hm)

/-- A walk goes wrong at a name that is too long, or because there is nothing. -/
theorem walk_error {er : Errno} (h : walk t follow k l names = .error er) :
    er = .nameTooLong ∨ meansAbsent er = true := by
  induction k, l, names using walk_induction with
  | nil k l =>
    rw [walk_nil] at h
    split at h
    · simp at h
    · exact .inr (Except.error.inj h ▸ rfl)
  | cons k l name rest ih ihk =>
    rw [walk_cons] at h
    split at h
    · exact .inr (Except.error.inj h ▸ rfl)
    split at h
    · exact ih _ h
    split at h
    · exact .inl (Except.error.inj h).symm
    split at h
    · split at h
      · simp at h
      · exact .inr (Except.error.inj h ▸ rfl)
    · split at h
      · simp at h
      · cases k with
        | zero => exact .inr (Except.error.inj h ▸ rfl)
        | succ j => exact ihk j _ _ rfl h
    · exact ih _ h

/-! ## One step more -/

/-- What a name leads to in a directory, links not followed. -/
def lastStep (t : Tree) (dir : Location) (n : Text) : Except Errno Place :=
  if !t.isDirectory dir then .error .notDirectory
  else if IsLong n then .error .nameTooLong
  else match t.find? (dir ++ [n]) with
    | none => .ok (.absent dir n)
    | some e => .ok (.present (dir ++ [n]) e)

/-- What comes after a place, links not followed: nothing after one where nothing is. -/
def stepFrom (t : Tree) (n : Text) : Except Errno Place → Except Errno Place
  | .ok (.present dir _) => lastStep t dir n
  | .ok (.absent _ _) => .error .notFound
  | .error e => .error e

section Step

variable {dir dir' x : Location} {m : Text} {r : Except Errno Place} {q : Place}

/-- A step that ends at something was taken from a directory, by a name that is in it. -/
theorem lastStep_present_iff : lastStep t dir n = .ok (.present x e)
    ↔ t.isDirectory dir = true ∧ ¬ IsLong n ∧ t.find? (dir ++ [n]) = some e ∧ x = dir ++ [n] := by
  unfold lastStep
  by_cases hdir : t.isDirectory dir = true
  · by_cases hlong : IsLong n
    · simp [hdir, hlong]
    · cases hfind : t.find? (dir ++ [n]) with
      | none => simp [hdir, hlong]
      | some e₀ => simp [hdir, hlong, and_comm, eq_comm (a := x)]
  · simp [hdir]

/-- A step that ends at a missing name was taken from a directory too. -/
theorem lastStep_absent_iff : lastStep t dir n = .ok (.absent dir' m)
    ↔ t.isDirectory dir = true ∧ ¬ IsLong n ∧ t.find? (dir ++ [n]) = none ∧ dir' = dir ∧ m = n := by
  unfold lastStep
  by_cases hdir : t.isDirectory dir = true
  · by_cases hlong : IsLong n
    · simp [hdir, hlong]
    · cases hfind : t.find? (dir ++ [n]) with
      | none => simp [hdir, hlong, eq_comm]
      | some e₀ => simp [hdir, hlong]
  · simp [hdir]

/-- A step goes on from where something was found. -/
theorem stepFrom_ok_iff : stepFrom t n r = .ok q
    ↔ ∃ dir e, r = .ok (.present dir e) ∧ lastStep t dir n = .ok q := by
  rcases r with er | ⟨dir, e⟩ | ⟨dir, k⟩
  · simp [stepFrom]
  · simp [stepFrom]
  · simp [stepFrom]

end Step

/-- A walk to a name is a walk to the directory it is in, and one step more. -/
theorem walk_concat (ht : t.Legal) (hl : (t.find? l).isSome) (hn : n ≠ Path.upName) :
    walk t false k l (names ++ [n]) = stepFrom t n (walk t true k l names) := by
  -- the longer walk goes the same way until the names of the shorter one are used up; links on that way
  -- are followed by both, since a name comes after them
  induction k, l, names using walk_induction with
  | nil k l =>
    obtain ⟨e, he⟩ := Option.isSome_iff_exists.mp hl
    have hwalk : walk t true k l [] = .ok (.present l e) := by rw [walk_nil, he]
    rw [List.nil_append, hwalk, walk_cons, if_neg hn]
    simp only [stepFrom, lastStep]
    split
    · rfl
    split
    · rfl
    cases hf : t.find? (l ++ [n]) with
    | none => rfl
    | some e' =>
      cases e' with
      | link target => rfl
      | _ => simp only [walk_nil, hf]
  | cons k l name rest ih ihk =>
    rw [List.cons_append, walk_cons, walk_cons]
    split
    · rfl
    rename_i hdir
    have hdir : t.isDirectory l = true := by simpa using hdir
    split
    · exact ih _ (Tree.isSome_find?_of_isDirectory (isDirectory_dropLast ht hdir))
    split
    · rfl
    cases hf : t.find? (l ++ [name]) with
    | none =>
      simp only [stepFrom]
      rw [if_neg (by simp)]
      cases rest <;> rfl
    | some e =>
      cases e with
      | link target =>
        simp only [Bool.not_true, Bool.and_false, Bool.not_false, Bool.and_true]
        rw [if_neg (by simp), if_neg (by simp)]
        cases k with
        | zero => rfl
        | succ j =>
          simp only [walkLink]
          rw [← List.append_assoc]
          exact ihk j _ _ rfl
            (Tree.isSome_find?_of_isDirectory (isDirectory_linkFrom ht hdir target))
      | _ => exact ih _ (by simp [hf])

/-- Where no link is at the end it does not matter whether one would be followed. -/
theorem walk_follow (h : walk t false k l names = .ok p)
    (hp : ∀ l' e, p = .present l' e → e.isLink = false) : walk t true k l names = .ok p := by
  apply Walks.walk_eq
  have hw := walks_of_walk h
  clear h
  induction hw with
  | here he => exact .here he
  | up hdir _ ih => exact .up hdir (ih hp)
  | absent hdir hup hshort hnone => exact .absent hdir hup hshort hnone
  | atLink => simpa [Entry.isLink] using hp _ _ rfl
  | through hdir hup hshort hlink _ _ ih =>
    exact .through hdir hup hshort hlink (fun _ => rfl) (ih hp)
  | on hdir hup hshort he hlink _ ih => exact .on hdir hup hshort he hlink (ih hp)

/-- What goes wrong without following a link at the end goes wrong with it. -/
theorem walk_follow_error {er : Errno} (h : walk t false k l names = .error er) :
    walk t true k l names = .error er := by
  -- both walks go the same way up to a link at the end, and that is no error
  induction k, l, names using walk_induction with
  | nil k l => rwa [walk_nil] at h ⊢
  | cons k l name rest ih ihk =>
    rw [walk_cons] at h ⊢
    split at h
    · rename_i hdir
      rwa [if_pos hdir]
    rename_i hdir
    rw [if_neg hdir]
    split at h
    · rename_i hup
      rw [if_pos hup]
      exact ih _ h
    rename_i hup
    rw [if_neg hup]
    split at h
    · rename_i hlong
      rwa [if_pos hlong]
    rename_i hlong
    rw [if_neg hlong]
    split at h
    · exact h
    · split at h
      · simp at h
      · rw [if_neg (by simp)]
        cases k with
        | zero => exact h
        | succ j => exact ihk j _ _ rfl h
    · exact ih _ h

/-! ## What stays -/

/-- Whatever can be gone through stays: directories and links. -/
structure Passable (t t' : Tree) : Prop where
  directory : ∀ l, t.isDirectory l = true → t'.isDirectory l = true
  link : ∀ l p, t.find? l = some (.link p) → t'.find? l = some (.link p)

theorem Passable.refl (t : Tree) : Passable t t := ⟨fun _ h => h, fun _ _ h => h⟩

theorem Passable.trans {t'' : Tree} (h : Passable t t') (h' : Passable t' t'') :
    Passable t t'' :=
  ⟨fun l hl => h'.directory l (h.directory l hl), fun l p hl => h'.link l p (h.link l p hl)⟩

/-- A walk from a location comes past directories, and in the end to what is there. -/
theorem Walks.isDirectory_or (h : Walks t follow k l names (.present l' e)) :
    t.isDirectory l = true ∨ l = l' := by
  cases h with
  | here => exact .inr rfl
  | up hdir | atLink hdir | through hdir | on hdir => exact .inl hdir

/-- What leads somewhere keeps leading there, provided the place is not taken away or made a link. -/
theorem walk_keeps (hk : Passable t t') (h : walk t true k l names = .ok (.present l' e))
    (he : t'.find? l' = some e') (hlink : e'.isLink = false) :
    walk t' true k l names = .ok (.present l' e') := by
  apply Walks.walk_eq
  have hw := walks_of_walk h
  clear h
  generalize hp : Place.present l' e = p at hw
  -- each step of the walk is a step in the other tree
  induction hw with
  | here =>
    obtain ⟨rfl, rfl⟩ := Place.present.inj hp
    exact .here he
  | absent => simp at hp
  | atLink _ _ _ _ hstop => simp at hstop
  | up hdir _ ih => exact .up (hk.directory _ hdir) (ih hp)
  | through hdir hup hshort hl _ _ ih =>
    exact .through (hk.directory _ hdir) hup hshort (hk.link _ _ hl) (fun _ => rfl) (ih hp)
  | on hdir hup hshort _ _ h ih =>
    subst hp
    -- the name leads to a directory, which is still one, or to the end
    rcases h.isDirectory_or with hd | rfl
    · obtain ⟨time, hd'⟩ := Tree.isDirectory_iff.mp (hk.directory _ hd)
      exact .on (hk.directory _ hdir) hup hshort hd' rfl (ih rfl)
    · exact .on (hk.directory _ hdir) hup hshort he hlink (ih rfl)

/-- A name that is too long is come to in every tree that lets through what the tree lets through. -/
theorem walk_nameTooLong (hk : Passable t t') (h : walk t follow k l names = .error .nameTooLong) :
    walk t' follow k l names = .error .nameTooLong := by
  induction k, l, names using walk_induction with
  | nil k l =>
    rw [walk_nil] at h
    split at h <;> simp at h
  | cons k l name rest ih ihk =>
    rw [walk_cons] at h
    split at h
    · simp at h
    rename_i hdir
    have hdir' : t'.isDirectory l = true := hk.directory l (by simpa using hdir)
    rw [walk_cons, if_neg (by simp [hdir'])]
    split at h
    · rename_i hup
      rw [if_pos hup]
      exact ih _ h
    rename_i hup
    rw [if_neg hup]
    split at h
    · rename_i hlong
      rw [if_pos hlong]
    rename_i hshort
    rw [if_neg hshort]
    split at h
    · split at h <;> simp at h
    · rename_i target hlink
      rw [hk.link _ _ hlink]
      dsimp only
      split at h
      · simp at h
      rename_i hgo
      rw [if_neg hgo]
      cases k with
      | zero => simp [walkLink] at h
      | succ j => exact ihk j _ _ rfl h
    · rename_i e hnot he
      -- names are left to go, so that a directory is here
      have hinto : t.isDirectory (l ++ [name]) = true := by
        cases hno : t.isDirectory (l ++ [name]) with
        | true => rfl
        | false =>
          cases rest with
          | nil =>
            rw [walk_nil, he] at h
            simp at h
          | cons m rest =>
            rw [walk_cons, hno] at h
            simp at h
      obtain ⟨time, hfind⟩ := Tree.isDirectory_iff.mp (hk.directory _ hinto)
      rw [hfind]
      exact ih _ h

theorem Walks.isDirectory_of_absent (h : Walks t follow k l names (.absent l' n)) :
    t.isDirectory l = true := by
  cases h with
  | up hdir | absent hdir | through hdir | on hdir => exact hdir

/-- What led to a missing name leads to what is made there. -/
theorem walk_filled (hk : Passable t t') (h : walk t true k l names = .ok (.absent l' n))
    (he : t'.find? (l' ++ [n]) = some e) (hlink : e.isLink = false) :
    walk t' true k l names = .ok (.present (l' ++ [n]) e) := by
  apply Walks.walk_eq
  have hw := walks_of_walk h
  clear h
  generalize hp : Place.absent l' n = p at hw
  induction hw with
  | here => simp at hp
  | atLink => simp at hp
  | absent hdir hup hshort =>
    obtain ⟨rfl, rfl⟩ := Place.absent.inj hp
    exact .on (hk.directory _ hdir) hup hshort he hlink (.here he)
  | up hdir _ ih => exact .up (hk.directory _ hdir) (ih hp)
  | through hdir hup hshort hl _ _ ih =>
    exact .through (hk.directory _ hdir) hup hshort (hk.link _ _ hl) (fun _ => rfl) (ih hp)
  | on hdir hup hshort _ _ h ih =>
    subst hp
    obtain ⟨time, hd'⟩ := Tree.isDirectory_iff.mp (hk.directory _ h.isDirectory_of_absent)
    exact .on (hk.directory _ hdir) hup hshort hd' rfl (ih rfl)

end Walks

end Disk

end Provenance
