/-
Runs of the store.

Three things are needed of the calls on artifacts: that they leave a legal disk
legal, whether they succeed or not; that the directories said to be missing are
those that are, in the order in which they can be made; and that a question is
answered by what the path leads to.
-/
import Provenance.Store
import Provenance.Proofs.Host
import Provenance.Proofs.Order

set_option autoImplicit false

namespace Provenance

/-! ## Questions -/

namespace Disk

variable {d : Disk} {p : Path} {l : Location} {e : Entry}

theorem stat_of_present (h : d.place true p = .ok (.present l e)) : d.stat p = .ok (l, e) := by
  rw [stat, h]

theorem stat_ok_iff : d.stat p = .ok (l, e) ↔ d.place true p = .ok (.present l e) := by
  unfold stat
  rcases d.place true p with er | ⟨l', e'⟩ | ⟨dir, n⟩ <;> simp

/-- A question is answered by what the path leads to. -/
theorem holds_of_stat (q : Entry → Bool) (h : d.stat p = .ok (l, e)) : d.holds p q = .ok (q e) := by
  rw [holds, h]

/-- Only of what the path leads to is the answer yes. -/
theorem holds_true_iff {q : Entry → Bool} :
    d.holds p q = .ok true ↔ ∃ l e, d.stat p = .ok (l, e) ∧ q e = true := by
  rw [holds]
  rcases d.stat p with er | ⟨l, e⟩
  · cases er <;> simp [meansAbsent]
  · simp

/-- Something is there if the path leads to it. -/
theorem hasEntry_true_iff :
    d.hasEntry p = .ok true ↔ ∃ l e, d.place true p = .ok (.present l e) := by
  simp [hasEntry, holds_true_iff, stat_ok_iff]

/-- Where nothing is, there is no directory. -/
theorem hasDirectory_of_hasEntry_false (h : d.hasEntry p = .ok false) :
    d.hasDirectory p = .ok false := by
  rw [hasEntry, holds] at h
  rw [hasDirectory, holds]
  rcases hs : d.stat p with er | ⟨l, e⟩
  · rw [hs] at h
    exact h
  · rw [hs] at h
    simp at h

theorem hasEntry_of_absent {dir : Location} {n : Text}
    (h : d.place true p = .ok (.absent dir n)) : d.hasEntry p = .ok false := by
  rw [hasEntry, holds, stat, h]
  rfl

theorem hasEntry_of_notFound (h : d.place true p = .error .notFound) :
    d.hasEntry p = .ok false := by
  rw [hasEntry, holds, stat, h]
  rfl

/-- A path that can be asked about is not too long. -/
theorem not_overlong_of_hasEntry {b : Bool} (h : d.hasEntry p = .ok b) : isOverlong p = false := by
  apply Bool.eq_false_iff.mpr
  intro hlong
  rw [hasEntry, holds, stat, place, if_pos hlong] at h
  simp [meansAbsent] at h

/-- What a path leads to has no overlong path. -/
theorem not_overlong_of_stat (h : d.stat p = .ok (l, e)) : isOverlong p = false :=
  not_overlong_of_hasEntry (holds_of_stat (fun _ => true) h)

/-- The root is there. -/
theorem hasEntry_root (ht : d.tree.Legal) (hp : p.Straight) (hn : p.names = []) :
    d.hasEntry p = .ok true := by
  obtain ⟨time, hfind⟩ := Tree.isDirectory_iff.mp ht.isDirectory_nil
  refine hasEntry_true_iff.mpr ⟨[], .directory time, ?_⟩
  -- no text is shorter than that of the root
  have hshort : isOverlong p = false := by
    obtain ⟨anchor, names⟩ := p
    obtain rfl : anchor = .root := hp.root
    obtain rfl : names = [] := hn
    decide
  rw [place_absolute d true hp.isAbsolute, if_neg (by simp [hshort]), hn, walk_nil, hfind]

end Disk

namespace Store

open Action Host

variable {h h' : Host} {path : Path} {f : Failure}

/-! ## Missing directories -/

/-- The paths that are come to on the way from a path through some names. -/
def onward : Path → List Text → List Path
  | _, [] => []
  | p, n :: ns => p.child n :: onward (p.child n) ns

theorem onward_concat (p : Path) (ns : List Text) (n : Text) :
    onward p (ns ++ [n]) = onward p ns ++ [(p.descend ns).child n] := by
  induction ns generalizing p with
  | nil => simp [onward]
  | cons m ns ih =>
    rw [List.cons_append, onward, onward, ih]
    simp [Path.child, Path.descend]

/-- The way ends at the path. -/
theorem descend_mem_onward (p : Path) (n : Text) (ns : List Text) :
    p.descend (n :: ns) ∈ onward p (n :: ns) := by
  induction ns generalizing p n with
  | nil => simp [onward, Path.descend, Path.child]
  | cons m ns ih =>
    rw [onward, Path.descend_cons]
    exact List.mem_cons_of_mem _ (ih (p.child n) m)

/-- What is on the way through some names is what goes on by a part of them. -/
theorem mem_onward {p q : Path} {ns : List Text} (h : q ∈ onward p ns) :
    ∃ n ms, q = (p.descend ms).child n ∧ ms ++ [n] <+: ns := by
  induction ns generalizing p with
  | nil => simp [onward] at h
  | cons m ns ih =>
    unfold onward at h
    rcases List.mem_cons.mp h with rfl | h
    · exact ⟨m, [], by simp, by simp⟩
    · obtain ⟨n, ms, rfl, hp⟩ := ih h
      exact ⟨n, m :: ms, by simp [Path.child, Path.descend], by simpa using hp⟩

/-- Asking which directories are missing changes nothing. -/
theorem runOn_hasEntry (path : Path) (h : Host) :
    (hasEntry path).runOn h
      = ((h.disk.hasEntry path).mapError fun e => ⟨.io (.ofErrno e path), []⟩, h) :=
  runOn_ask path _ h

/-- A list of missing directories is made up from the end of the path. -/
theorem missingDirectories_cases {k : Nat} {missing : List Path}
    (hr : (missingDirectories k path).runOn h = (.ok missing, h')) :
    (h.disk.hasEntry path = .ok true ∧ missing = [] ∧ h' = h)
      ∨ (h.disk.hasEntry path = .ok false
        ∧ ((k = 0 ∧ missing = [path] ∧ h' = h)
          ∨ ∃ j above, k = j + 1
            ∧ (missingDirectories j path.parent).runOn h = (.ok above, h')
            ∧ missing = above ++ [path])) := by
  rcases he : h.disk.hasEntry path with er | b
  · cases k <;>
      (rw [missingDirectories, runOn_bind, runOn_hasEntry, he] at hr
       simp at hr)
  -- what is there ends the search, and nothing above it is looked at
  cases b with
  | true =>
    refine .inl ⟨rfl, ?_⟩
    cases k <;>
      (rw [missingDirectories, runOn_bind, runOn_hasEntry, he] at hr
       simpa [eq_comm] using hr)
  | false =>
    refine .inr ⟨rfl, ?_⟩
    cases k with
    | zero =>
      unfold missingDirectories at hr
      rw [runOn_bind, runOn_hasEntry, he] at hr
      exact .inl ⟨rfl, by simpa [eq_comm] using hr⟩
    | succ k =>
      unfold missingDirectories at hr
      rw [runOn_bind, runOn_hasEntry, he] at hr
      obtain ⟨above, h₁, hrun, hret⟩ := bind_ok_iff.mp hr
      obtain ⟨rfl, rfl⟩ : above ++ [path] = missing ∧ h₁ = h' := by simpa using hret
      exact .inr ⟨k, above, rfl, hrun, rfl⟩

/-- The directories said to be missing are those on the way from the last that is there. -/
theorem missingDirectories_ok (ht : h.disk.tree.Legal) (hp : path.Straight) {missing : List Path}
    (hr : (missingDirectories path.names.length path).runOn h = (.ok missing, h')) :
    h' = h ∧ ∃ q ns, path = q.descend ns ∧ missing = onward q ns
      ∧ h.disk.hasEntry q = .ok true
      ∧ ∀ x ∈ onward q ns, h.disk.hasEntry x = .ok false := by
  generalize hk : path.names.length = k at hr
  -- the search goes up by one name each time, so it can go on for as many steps as the path has names;
  -- at the root it ends, since the root is there
  induction k generalizing path missing h' with
  | zero =>
    have hroot := Disk.hasEntry_root ht hp (List.length_eq_zero_iff.mp hk)
    rcases missingDirectories_cases hr with ⟨he, rfl, rfl⟩ | ⟨he, -⟩
    · exact ⟨rfl, path, [], by simp, rfl, he, by simp [onward]⟩
    · simp [hroot] at he
  | succ k ih =>
    rcases missingDirectories_cases hr with ⟨he, rfl, rfl⟩ | ⟨he, h0 | ⟨j, above, hj, hrun, rfl⟩⟩
    · exact ⟨rfl, path, [], by simp, rfl, he, by simp [onward]⟩
    · exact absurd h0.1 (by simp)
    obtain rfl : k = j := by omega
    obtain hnil | ⟨n, -, hpar, heq⟩ := hp.cases
    · simp [hnil] at hk
    have hlen : path.parent.names.length = k := by simp [Path.parent, hk]
    obtain ⟨hsame, q, ns, hq, rfl, hthere, hmiss⟩ := ih hpar hlen hrun
    have hnext : path = (q.descend ns).child n := by rw [← hq]; exact heq
    refine ⟨hsame, q, ns ++ [n], ?_, ?_, hthere, fun x hx => ?_⟩
    · rw [Path.descend_concat, ← hnext]
    · rw [onward_concat, ← hnext]
    · rw [onward_concat, ← hnext] at hx
      rcases List.mem_append.mp hx with hx | hx
      · exact hmiss x hx
      · rw [List.mem_singleton.mp hx]; exact he

/-- If a path is there and nothing further on is, what is further on is missing. -/
theorem missingDirectories_of_onward {q : Path} {ns : List Text} {k : Nat} (hk : ns.length ≤ k)
    (hthere : h.disk.hasEntry q = .ok true)
    (hmiss : ∀ x ∈ onward q ns, h.disk.hasEntry x = .ok false) :
    (missingDirectories k (q.descend ns)).runOn h = (.ok (onward q ns), h) := by
  -- induction from the end of the path, where the search begins
  induction ns using List.reverseRecOn generalizing k with
  | nil =>
    rw [Path.descend_nil]
    cases k <;>
      rw [missingDirectories, runOn_bind, runOn_hasEntry, hthere] <;> rfl
  | append_singleton ns n ih =>
    rw [onward_concat] at hmiss ⊢
    rw [Path.descend_concat]
    cases k with
    | zero => simp at hk
    | succ k =>
      unfold missingDirectories
      rw [runOn_bind, runOn_hasEntry, hmiss _ (by simp)]
      have hrun := ih (k := k) (by simpa using hk)
        fun x hx => hmiss x (List.mem_append_left _ hx)
      show (missingDirectories k ((q.descend ns).child n).parent >>= _).runOn h = _
      rw [Path.parent_child]
      exact runOn_bind_ok hrun

/-- The paths said to be missing lead the way to the path. -/
theorem mem_missingDirectories (k : Nat) (path : Path) (h : Host) (missing : List Path) (h' : Host)
    (hr : (missingDirectories k path).runOn h = (.ok missing, h')) :
    ∀ x ∈ missing, x.anchor = path.anchor ∧ x.names <+: path.names := by
  -- each parent is a prefix of the path, and so is what is found missing above it
  induction k generalizing path missing h' with
  | zero =>
    rcases missingDirectories_cases hr with ⟨-, rfl, -⟩ | ⟨-, ⟨-, rfl, -⟩ | ⟨j, above, hj, -⟩⟩
    · simp
    · simp
    · exact absurd hj (by simp)
  | succ k ih =>
    rcases missingDirectories_cases hr with ⟨-, rfl, -⟩ | ⟨-, ⟨h0, -⟩ | ⟨j, above, hj, hrun, rfl⟩⟩
    · simp
    · exact absurd h0 (by simp)
    obtain rfl : k = j := by omega
    intro x hx
    rcases List.mem_append.mp hx with hx | hx
    · obtain ⟨hanchor, hstart⟩ := ih _ _ _ hrun x hx
      exact ⟨hanchor, hstart.trans (List.dropLast_prefix _)⟩
    · rw [List.mem_singleton.mp hx]
      exact ⟨rfl, List.prefix_refl _⟩

/-! ## What making and touching respects -/

theorem respects_missingDirectories {R : Host → Host → Prop} (hR : Stepwise R) (k : Nat)
    (path : Path) : Respects R (missingDirectories k path) := by
  induction k generalizing path with
  | zero =>
    apply respects_bind hR (respects_ask hR _ _)
    intro b
    cases b <;> exact respects_pure hR _
  | succ k ih =>
    apply respects_bind hR (respects_ask hR _ _)
    intro b
    cases b
    · exact respects_bind hR (ih _) fun _ => respects_pure hR _
    · exact respects_pure hR _

section

variable {R : Disk → Disk → Prop} (hR : Stepwise (Across R))
include hR

/-- Creating a file that is missing disturbs nothing that creating a file does not. -/
theorem respects_createIfAbsent
    (hc : ∀ d now d', d.createFile path now = .ok d' → R d d') :
    Respects (Across R) (createIfAbsent path) := by
  apply respects_bind hR (respects_meetFault hR _ _)
  intro _ h
  rw [runOn_bind, runOn_get]
  dsimp only
  rcases hch : h.disk.createFile path h.clock.now with er | d
  · cases er <;> exact hR.refl h
  · exact hc _ _ _ hch

/-- Moving a time forward disturbs nothing that setting it does not. -/
theorem respects_touch (hc : ∀ d time d', d.setTime path time = .ok d' → R d d') :
    Respects (Across R) (touch path) := by
  apply respects_bind hR (respects_meetFault hR _ _)
  intro _
  apply respects_call hR
  intro d now d' hch
  unfold touched at hch
  obtain ⟨le, -, hset⟩ := except_bind_ok_iff.mp hch
  exact hc _ _ _ hset

/-- Creating directories disturbs nothing that making one on the way does not. -/
theorem respects_createDirectories (hp : path.Straight)
    (hc : ∀ x : Path, x.Straight → x.names <+: path.names →
      ∀ d now d', d.makeDirectory x now = .ok d' → R d d') :
    Respects (Across R) (createDirectories path) := by
  apply respects_bind hR (respects_meetFault hR _ _)
  intro _
  refine respects_bind_of hR (respects_missingDirectories hR _ _)
    (mem_missingDirectories _ path) fun missing hm => ?_
  refine respects_bind hR (respects_forM hR missing fun x hx => ?_) fun _ => respects_pure hR _
  -- what is missing is on the way to the path, and so goes through its names
  obtain ⟨hanchor, hstart⟩ := hm x hx
  exact respects_makeDirectory hR
    (hc x ⟨hanchor.trans hp.root, fun n hn => hp.names n (hstart.subset hn)⟩ hstart)

end

/-! ## What making and touching come to -/

/-- A file has been created, or something was there already. -/
theorem createIfAbsent_ok {created : Bool}
    (hr : (createIfAbsent path).runOn h = (.ok created, h')) :
    (created = true ∧ h.disk.createFile path h.clock.now = .ok h'.disk)
      ∨ (created = false ∧ h.disk.createFile path h.clock.now = .error .alreadyThere
        ∧ h'.disk = h.disk) := by
  unfold createIfAbsent at hr
  rcases hf : h.fault? .createIfAbsent path with _ | fault
  swap
  · rw [runOn_bind_error (runOn_meetFault_some hf)] at hr
    simp at hr
  rw [runOn_bind_ok (runOn_meetFault_none hf), runOn_bind, runOn_get] at hr
  dsimp only at hr
  rcases hc : (h.struck .createIfAbsent path).disk.createFile path
    (h.struck .createIfAbsent path).clock.now with er | d
  · rw [hc] at hr
    cases er with
    | alreadyThere =>
      obtain ⟨hcreated, rfl⟩ := Prod.mk.inj hr
      exact .inr ⟨(Except.ok.inj hcreated).symm, hc, rfl⟩
    | _ => simp at hr
  · rw [hc] at hr
    obtain ⟨hcreated, rfl⟩ := Prod.mk.inj hr
    exact .inl ⟨(Except.ok.inj hcreated).symm, hc⟩

/-- A touch has moved the time of what the path leads to, forward. -/
theorem touch_ok {u : Unit} (hr : (touch path).runOn h = (.ok u, h')) :
    ∃ x e time, h.disk.place true path = .ok (.present x e) ∧ e.time < time
      ∧ h'.disk = h.disk.withTree (h.disk.tree.stamp x time) := by
  obtain ⟨now, hc⟩ := method_ok hr
  unfold touched at hc
  obtain ⟨⟨x, e⟩, hstat, hset⟩ := except_bind_ok_iff.mp hc
  obtain ⟨x', e', hpl, hd⟩ := Disk.setTime_ok hset
  have hpl' := Disk.stat_ok_iff.mp hstat
  obtain ⟨rfl, rfl⟩ : x = x' ∧ e = e' := by simpa [hpl'] using hpl
  exact ⟨x, e, _, hpl, by omega, hd⟩

/-! ## Legal disks stay legal -/

theorem staysLegal_createIfAbsent (hp : path.Straight) :
    Respects (Across StaysLegal) (createIfAbsent path) :=
  respects_createIfAbsent stepwise_staysLegal fun _ _ _ hc hd => hd.createFile hp hc

theorem staysLegal_touch (path : Path) : Respects (Across StaysLegal) (touch path) :=
  respects_touch stepwise_staysLegal fun _ _ _ hc hd => hd.setTime hc

theorem staysLegal_createDirectories (hp : path.Straight) :
    Respects (Across StaysLegal) (createDirectories path) :=
  respects_createDirectories stepwise_staysLegal hp fun _ hx _ _ _ _ hc hd => hd.makeDirectory hx hc

theorem staysLegal_delete (path : Path) : Respects (Across StaysLegal) (delete path) :=
  respects_bind stepwise_staysLegal (respects_meetFault stepwise_staysLegal _ _) fun _ =>
    respects_call stepwise_staysLegal fun _ _ _ hc hd => hd.unlink hc

theorem staysLegal_removeDirectory (path : Path) :
    Respects (Across StaysLegal) (removeDirectory path) :=
  respects_bind stepwise_staysLegal (respects_meetFault stepwise_staysLegal _ _) fun _ =>
    respects_call stepwise_staysLegal fun _ _ _ hc hd => hd.removeDirectory hc

/-! ## Faults stay failed calls -/

theorem staysIo_createDirectories (path : Path) :
    Respects StaysIo (createDirectories path) := by
  have hR := stepwise_staysIo
  apply respects_bind hR (staysIo_meetFault _ _)
  intro _
  apply respects_bind hR (respects_missingDirectories hR _ _)
  intro missing
  refine respects_bind hR (respects_forM hR missing fun x _ => ?_) fun _ => respects_pure hR _
  exact staysIo_makeDirectory x

theorem staysIo_createIfAbsent (path : Path) : Respects StaysIo (createIfAbsent path) := by
  apply respects_bind stepwise_staysIo (staysIo_meetFault _ _)
  intro _ h hio
  rw [runOn_bind, runOn_get]
  dsimp only
  rcases hc : h.disk.createFile path h.clock.now with er | d
  · cases er <;> exact hio
  · exact hio

theorem staysIo_touch (path : Path) : Respects StaysIo (touch path) :=
  respects_bind stepwise_staysIo (staysIo_meetFault _ _) fun _ => staysIo_call _ _

/-! ## What is below a directory -/

/-- What is found in the directory that a path leads to; nothing if it leads to none. -/
def inDirectory {α : Type} (root : Path) (k : Location → Action Host (List α)) :
    Action Host (List α) := do
  if ← Host.ask root (·.hasDirectory root) then
    let (l, _) ← Host.ask root (·.stat root)
    k l
  else return []

theorem below_eq (root : Path) :
    below root = inDirectory root fun l => do return (← get).disk.tree.inside l := rfl

theorem directoriesBelow_eq (root : Path) :
    directoriesBelow root = inDirectory root fun l => do
      let found := (((← get).disk.tree.at? l).map Tree.directories).getD []
      return found.filter fun names => !Disk.isOverlong (root.descend names) := rfl

/-- A path that leads nowhere is taken for one that leads to no directory, unless it is too long. -/
theorem runOn_inDirectory {α : Type} (root : Path) (k : Location → Action Host (List α)) (h : Host) :
    (inDirectory root k).runOn h
      = match h.disk.place true root with
        | .ok (.present l e) => if e.isDirectory then (k l).runOn h else (.ok [], h)
        | .ok (.absent _ _) => (.ok [], h)
        | .error er =>
          if Disk.meansAbsent er then (.ok [], h)
          else (.error ⟨.io (.ofErrno er root), []⟩, h) := by
  unfold inDirectory
  rw [runOn_bind, runOn_ask, Disk.hasDirectory, Disk.holds]
  rcases hpl : h.disk.place true root with er | ⟨l, e⟩ | ⟨dir, n⟩
  · have hstat : h.disk.stat root = .error er := by rw [Disk.stat, hpl]
    rw [hstat]
    cases hm : Disk.meansAbsent er <;> simp [hm]
  · have hstat := Disk.stat_of_present hpl
    rw [hstat]
    cases hd : e.isDirectory with
    | false => simp [hd]
    | true =>
      simp only [hd, except_mapError_ok, if_true]
      rw [runOn_bind, runOn_ask, hstat]
      rfl
  · have hstat : h.disk.stat root = .error .notFound := by rw [Disk.stat, hpl]
    rw [hstat]
    simp [Disk.meansAbsent]

/-- What has been found is in the directory that the path leads to, or there is no such directory. -/
theorem inDirectory_ok {α : Type} {root : Path} {k : Location → Action Host (List α)} {found : List α}
    (hr : (inDirectory root k).runOn h = (.ok found, h')) :
    (∃ l e, h.disk.place true root = .ok (.present l e) ∧ e.isDirectory = true
        ∧ (k l).runOn h = (.ok found, h'))
      ∨ (found = [] ∧ h' = h
        ∧ (∀ l e, h.disk.place true root = .ok (.present l e) → e.isDirectory = false)
        ∧ ∀ er, h.disk.place true root = .error er → Disk.meansAbsent er = true) := by
  rw [runOn_inDirectory] at hr
  rcases hpl : h.disk.place true root with er | ⟨l, e⟩ | ⟨dir, n⟩
  · rw [hpl] at hr
    dsimp only at hr
    split at hr
    · rename_i habsent
      obtain ⟨hfound, rfl⟩ := Prod.mk.inj hr
      exact .inr ⟨(Except.ok.inj hfound).symm, rfl, by simp, by simp [habsent]⟩
    · simp at hr
  · rw [hpl] at hr
    dsimp only at hr
    by_cases hdir : e.isDirectory = true
    · rw [if_pos hdir] at hr
      exact .inl ⟨l, e, rfl, hdir, hr⟩
    · rw [if_neg hdir] at hr
      obtain ⟨hfound, rfl⟩ := Prod.mk.inj hr
      exact .inr ⟨(Except.ok.inj hfound).symm, rfl, by simpa using hdir, by simp⟩
  · rw [hpl] at hr
    obtain ⟨hfound, rfl⟩ := Prod.mk.inj hr
    exact .inr ⟨(Except.ok.inj hfound).symm, rfl, by simp, by simp⟩

/-- A path that is not too long is looked in. -/
theorem inDirectory_idle {α : Type} {root : Path} {k : Location → Action Host (List α)}
    (hfound : ∀ er, h.disk.place true root = .error er → Disk.meansAbsent er = true)
    (hk : ∀ l, ∃ found, (k l).runOn h = (.ok found, h)) :
    ∃ found, (inDirectory root k).runOn h = (.ok found, h) := by
  rw [runOn_inDirectory]
  rcases hpl : h.disk.place true root with er | ⟨l, e⟩ | ⟨dir, n⟩
  · dsimp only
    rw [if_pos (hfound er hpl)]
    exact ⟨[], rfl⟩
  · dsimp only
    by_cases hdir : e.isDirectory = true
    · rw [if_pos hdir]
      exact hk l
    · rw [if_neg hdir]
      exact ⟨[], rfl⟩
  · exact ⟨[], rfl⟩

theorem respects_inDirectory {α : Type} {R : Disk → Disk → Prop} (hR : Stepwise (Across R))
    (root : Path) {k : Location → Action Host (List α)} (hk : ∀ l, Respects (Across R) (k l)) :
    Respects (Across R) (inDirectory root k) := by
  apply respects_bind hR (respects_ask hR _ _)
  intro b
  cases b
  · exact respects_pure hR _
  · exact respects_bind hR (respects_ask hR _ _) fun le => hk le.1

theorem respects_below {R : Disk → Disk → Prop} (hR : Stepwise (Across R)) (root : Path) :
    Respects (Across R) (below root) := by
  rw [below_eq]
  exact respects_inDirectory hR root fun _ =>
    respects_bind hR (respects_get hR) fun _ => respects_pure hR _

theorem respects_listFiles {R : Disk → Disk → Prop} (hR : Stepwise (Across R)) (root : Path) :
    Respects (Across R) (listFiles root) := by
  apply respects_bind hR (respects_meetFault hR _ _)
  intro _
  apply respects_bind hR (respects_below hR _)
  intro found
  dsimp only
  split
  · exact respects_fail hR _
  · exact respects_pure hR _

theorem respects_directoriesBelow {R : Disk → Disk → Prop} (hR : Stepwise (Across R))
    (root : Path) : Respects (Across R) (directoriesBelow root) := by
  rw [directoriesBelow_eq]
  exact respects_inDirectory hR root fun _ =>
    respects_bind hR (respects_get hR) fun _ => respects_pure hR _

theorem respects_removeIfEmpty {R : Disk → Disk → Prop} (hR : Stepwise (Across R)) (root : Path)
    (directories : List (List Text))
    (hremove : ∀ names ∈ directories, Respects (Across R) (removeDirectory (root.descend names))) :
    Respects (Across R) (removeIfEmpty root directories) := by
  induction directories with
  | nil => exact respects_pure hR _
  | cons names rest ih =>
    have hrest := ih fun ms hms => hremove ms (List.mem_cons_of_mem _ hms)
    apply respects_bind hR (respects_ask hR _ _)
    intro le
    apply respects_bind hR (respects_get hR)
    intro h
    split
    · apply respects_bind hR (hremove names (List.mem_cons_self ..))
      intro _
      exact respects_bind hR hrest fun _ => respects_pure hR _
    · exact hrest

/-- Removing empty directories disturbs nothing that removing those that are found does not. -/
theorem respects_removeEmptyDirectories_of {R : Disk → Disk → Prop} {I : Host → Prop}
    {Q : List Text → Prop} (hR : Stepwise (Across R))
    (hI : ∀ {h h'}, (I h → Across R h h') → Across R h h') (root : Path)
    (hfound : ∀ h found h', I h → (directoriesBelow root).runOn h = (.ok found, h') →
      ∀ names ∈ found, Q names)
    (hremove : ∀ names, Q names → Respects (Across R) (removeDirectory (root.descend names))) :
    Respects (Across R) (removeEmptyDirectories root) := by
  apply respects_bind hR (respects_meetFault hR _ _)
  intro _
  refine respects_bind_under hR hI (respects_directoriesBelow hR _) hfound fun directories hQ => ?_
  split
  · exact respects_fail hR _
  · refine respects_bind hR (respects_removeIfEmpty hR root _ fun names hmem => ?_)
      fun _ => respects_pure hR _
    -- the deepest come first, but they are those that were found
    obtain ⟨ranked, hranked, rfl⟩ := List.mem_map.mp hmem
    obtain ⟨names, hnames, rfl⟩ := List.mem_map.mp (mem_sortBy.mp hranked)
    exact hremove names (hQ names hnames)

theorem respects_removeEmptyDirectories {R : Disk → Disk → Prop} (hR : Stepwise (Across R))
    (root : Path) (hremove : ∀ names, Respects (Across R) (removeDirectory (root.descend names))) :
    Respects (Across R) (removeEmptyDirectories root) :=
  respects_removeEmptyDirectories_of (I := fun _ => True) (Q := fun _ => True) hR
    (fun h => h trivial) root (fun _ _ _ _ _ _ _ => trivial) fun names _ => hremove names

/-- Files that are listed go on from the directory. -/
theorem mem_listFiles {files : List Path} (hr : (listFiles path).runOn h = (.ok files, h')) :
    ∀ p ∈ files, ∃ names, p = path.descend names := by
  obtain ⟨_, _, -, hrest⟩ := bind_ok_iff.mp hr
  obtain ⟨found, _, -, hend⟩ := bind_ok_iff.mp hrest
  dsimp only at hend
  -- a search that is too deep lists nothing
  split at hend
  · simp at hend
  obtain ⟨rfl, -⟩ : _ = files ∧ _ := by simpa using hend
  intro p hp
  obtain ⟨ne, -, rfl⟩ := List.mem_map.mp hp
  exact ⟨ne.1, rfl⟩

/-- Directories that are removed go on from the directory. -/
theorem mem_removeEmptyDirectories {dirs : List Path}
    (hr : (removeEmptyDirectories path).runOn h = (.ok dirs, h')) :
    ∀ p ∈ dirs, ∃ names, p = path.descend names := by
  obtain ⟨_, _, -, hrest⟩ := bind_ok_iff.mp hr
  obtain ⟨directories, _, -, hrest⟩ := bind_ok_iff.mp hrest
  dsimp only at hrest
  split at hrest
  · simp [runOn_bind] at hrest
  obtain ⟨removed, _, -, hpure⟩ := bind_ok_iff.mp hrest
  obtain ⟨rfl, -⟩ : _ = dirs ∧ _ := by simpa using hpure
  intro p hp
  obtain ⟨names, -, rfl⟩ := List.mem_map.mp hp
  exact ⟨names, rfl⟩

/-! ## What the calls of the store fail with -/

theorem blames_createIfAbsent (path : Path) : Blames IsCall (createIfAbsent path) := by
  apply blames_bind (blames_meetFault _ _)
  intro _
  refine blames_bind blames_get fun h => ?_
  split
  · exact blames_bind (fun s f s' h => by simp at h) fun _ => blames_pure _
  · exact blames_pure _
  · exact blames_fail trivial

theorem blames_touch (path : Path) : Blames IsCall (touch path) :=
  blames_bind (blames_meetFault _ _) fun _ => blames_call _ _

theorem blames_delete (path : Path) : Blames IsCall (delete path) :=
  blames_bind (blames_meetFault _ _) fun _ => blames_call _ _

theorem blames_removeDirectory (path : Path) : Blames IsCall (removeDirectory path) :=
  blames_bind (blames_meetFault _ _) fun _ => blames_call _ _

theorem blames_missingDirectories (k : Nat) (path : Path) :
    Blames IsCall (missingDirectories k path) := by
  induction k generalizing path with
  | zero =>
    apply blames_bind (blames_ask _ _)
    intro b
    cases b <;> exact blames_pure _
  | succ k ih =>
    apply blames_bind (blames_ask _ _)
    intro b
    cases b
    · exact blames_bind (ih _) fun _ => blames_pure _
    · exact blames_pure _

theorem blames_createDirectories (path : Path) : Blames IsCall (createDirectories path) := by
  apply blames_bind (blames_meetFault _ _)
  intro _
  apply blames_bind (blames_missingDirectories _ _)
  intro missing
  exact blames_bind (blames_forM _ fun _ _ => blames_makeDirectory _) fun _ => blames_pure _

theorem blames_below (root : Path) : Blames IsCall (below root) := by
  apply blames_bind (blames_ask _ _)
  intro b
  cases b
  · exact blames_pure _
  · exact blames_bind (blames_ask _ _) fun _ => blames_bind blames_get fun _ => blames_pure _

theorem blames_listFiles (root : Path) : Blames IsCall (listFiles root) := by
  apply blames_bind (blames_meetFault _ _)
  intro _
  apply blames_bind (blames_below _)
  intro found
  dsimp only
  split
  · exact blames_fail trivial
  · exact blames_pure _

theorem blames_removeIfEmpty (root : Path) (directories : List (List Text)) :
    Blames IsCall (removeIfEmpty root directories) := by
  induction directories with
  | nil => exact blames_pure _
  | cons names rest ih =>
    refine blames_bind (blames_ask _ _) fun _ => blames_bind blames_get fun _ => ?_
    split
    · exact blames_bind (blames_removeDirectory _) fun _ => blames_bind ih fun _ => blames_pure _
    · exact ih

/-- Only a search through directories that are too deep fails otherwise than by a call. -/
theorem blames_removeEmptyDirectories (root : Path) :
    Blames (fun f => IsCall f ∨ f = ⟨.deepSearch, []⟩) (removeEmptyDirectories root) := by
  refine blames_bind ((blames_meetFault _ _).imp fun _ => .inl) fun _ => ?_
  refine blames_bind (Blames.imp ?_ fun _ => .inl) fun directories => ?_
  · apply blames_bind (blames_ask _ _)
    intro b
    cases b
    · exact blames_pure _
    · exact blames_bind (blames_ask _ _) fun _ => blames_bind blames_get fun _ => blames_pure _
  · split
    · exact blames_fail (.inr rfl)
    · exact blames_bind ((blames_removeIfEmpty _ _).imp fun _ => .inl) fun _ => blames_pure _

end Store

end Provenance
