/-
Runs on a host.

The equations tell what the calls on a host do, one by one. A relation between
disks that no change of a call disturbs is not disturbed by whatever is put
together from calls: `Across` lifts it to hosts. One that all calls respect is
that a legal disk stays legal.

Faults are struck off their rules and never added, so where all rules are about
failed calls a call fails as one, or not at all on purpose.
-/
import Provenance.Journal
import Provenance.Proofs.Action
import Provenance.Proofs.Disk.Calls

set_option autoImplicit false

namespace Provenance.Host

open Action

variable {α : Type} {h h' : Host} {path : Path} {f : Failure} {method : StoreMethod}

/-! ## The calls, one by one -/

/-- The host after a call has met its fault or found that there is none. -/
def struck (method : StoreMethod) (path : Path) (h : Host) : Host :=
  { h with faults := (strike method path h.faults).1 }

/-- The fault that a call meets. -/
def fault? (method : StoreMethod) (path : Path) (h : Host) : Option Fault :=
  (strike method path h.faults).2

@[simp] theorem disk_struck (method : StoreMethod) (path : Path) (h : Host) :
    (h.struck method path).disk = h.disk := rfl

theorem runOn_meetFault_none (hf : h.fault? method path = none) :
    (meetFault method path).runOn h = (.ok (), h.struck method path) := by
  have hf' : (strike method path h.faults).2 = none := hf
  simp [meetFault, runOn_bind, hf', struck]

theorem runOn_meetFault_some {fault : Fault} (hf : h.fault? method path = some fault) :
    (meetFault method path).runOn h
      = (.error ⟨fault.cause path, []⟩, h.struck method path) := by
  have hf' : (strike method path h.faults).2 = some fault := hf
  simp [meetFault, runOn_bind, hf', struck]

/-- Meeting a fault, or none, changes nothing on the disk. -/
theorem disk_of_meetFault {r : Except Failure Unit}
    (hr : (meetFault method path).runOn h = (r, h')) : h'.disk = h.disk := by
  cases hf : h.fault? method path with
  | none =>
    rw [runOn_meetFault_none hf] at hr
    rw [← (Prod.mk.inj hr).2, disk_struck]
  | some fault =>
    rw [runOn_meetFault_some hf] at hr
    rw [← (Prod.mk.inj hr).2, disk_struck]

/-- Without rules no call meets a fault, and the host stays as it is. -/
theorem runOn_meetFault_nil (hf : h.faults = []) (method : StoreMethod) (path : Path) :
    (meetFault method path).runOn h = (.ok (), h) := by
  have hnone : h.fault? method path = none := by rw [fault?, hf, strike]
  have hsame : h.struck method path = h := by
    obtain ⟨disk, clock, faults⟩ := h
    obtain rfl : faults = [] := hf
    rfl
  rw [runOn_meetFault_none hnone, hsame]

theorem runOn_ask (path : Path) (question : Disk → Except Errno α) (h : Host) :
    (ask path question).runOn h
      = ((question h.disk).mapError fun e => ⟨.io (.ofErrno e path), []⟩, h) := by
  unfold ask
  rw [runOn_bind, runOn_get]
  dsimp only
  cases question h.disk <;> rfl

theorem runOn_call_ok {change : Disk → Int → Except Errno Disk} {d : Disk}
    (hc : change h.disk h.clock.now = .ok d) :
    (call path change).runOn h = (.ok (), { h with disk := d, clock := h.clock.next }) := by
  simp [call, runOn_bind, hc]

theorem runOn_call_error {change : Disk → Int → Except Errno Disk} {e : Errno}
    (hc : change h.disk h.clock.now = .error e) :
    (call path change).runOn h = (.error ⟨.io (.ofErrno e path), []⟩, h) := by
  simp [call, runOn_bind, hc]

/-- A method of the store that makes one call meets its fault, or the call fails, or it changes the
disk. -/
theorem method_cases (method : StoreMethod) (path : Path)
    (change : Disk → Int → Except Errno Disk) (h : Host) :
    (∃ fault, h.fault? method path = some fault
      ∧ (meetFault method path >>= fun _ => call path change).runOn h
        = (.error ⟨fault.cause path, []⟩, h.struck method path))
    ∨ (∃ e, change h.disk h.clock.now = .error e
      ∧ (meetFault method path >>= fun _ => call path change).runOn h
        = (.error ⟨.io (.ofErrno e path), []⟩, h.struck method path))
    ∨ ∃ d, change h.disk h.clock.now = .ok d
      ∧ (meetFault method path >>= fun _ => call path change).runOn h
        = (.ok (), { h.struck method path with disk := d, clock := h.clock.next }) := by
  rcases hf : h.fault? method path with _ | fault
  · rw [runOn_bind_ok (runOn_meetFault_none hf)]
    rcases hc : change (h.struck method path).disk (h.struck method path).clock.now with e | d
    · exact .inr (.inl ⟨e, hc, runOn_call_error hc⟩)
    · exact .inr (.inr ⟨d, hc, runOn_call_ok hc⟩)
  · exact .inl ⟨fault, rfl, runOn_bind_error (runOn_meetFault_some hf)⟩

theorem method_ok {change : Disk → Int → Except Errno Disk} {u : Unit}
    (hr : (meetFault method path >>= fun _ => call path change).runOn h = (.ok u, h')) :
    ∃ now, change h.disk now = .ok h'.disk := by
  rcases method_cases method path change h with ⟨fault, -, hrun⟩ | ⟨e, -, hrun⟩ | ⟨d, hc, hrun⟩
  · simp [hrun] at hr
  · simp [hrun] at hr
  · rw [hrun] at hr
    obtain ⟨-, rfl⟩ := Prod.mk.inj hr
    exact ⟨_, hc⟩

theorem disk_of_method_error {change : Disk → Int → Except Errno Disk}
    (hr : (meetFault method path >>= fun _ => call path change).runOn h = (.error f, h')) :
    h'.disk = h.disk := by
  rcases method_cases method path change h with ⟨fault, -, hrun⟩ | ⟨e, -, hrun⟩ | ⟨d, -, hrun⟩
  · rw [hrun] at hr
    obtain ⟨-, rfl⟩ := Prod.mk.inj hr
    rfl
  · rw [hrun] at hr
    obtain ⟨-, rfl⟩ := Prod.mk.inj hr
    rfl
  · simp [hrun] at hr

theorem runOn_makeDirectory_ok {d : Disk} (hc : h.disk.makeDirectory path h.clock.now = .ok d) :
    (makeDirectory path).runOn h = (.ok (), { h with disk := d, clock := h.clock.next }) := by
  simp [makeDirectory, runOn_bind, hc]

/-- A directory that cannot be made is an error unless it is there already. -/
theorem runOn_makeDirectory_error {e : Errno}
    (hc : h.disk.makeDirectory path h.clock.now = .error e) :
    (makeDirectory path).runOn h
      = (match h.disk.hasDirectory path with
        | .ok true => .ok ()
        | .ok false => .error ⟨.io (.ofErrno e path), []⟩
        | .error e' => .error ⟨.io (.ofErrno e' path), []⟩, h) := by
  unfold makeDirectory
  rw [runOn_bind, runOn_get]
  dsimp only
  rw [hc]
  dsimp only
  rw [runOn_bind, runOn_ask]
  rcases h.disk.hasDirectory path with e' | b
  · rfl
  · cases b <;> rfl

@[simp] theorem runOn_readClock (h : Host) :
    readClock.runOn h = (.ok h.clock.now, { h with clock := h.clock.next }) := rfl

/-! ## Faults that are failed calls -/

/-- Every fault that the host may still show is a failed call. -/
def OnlyIo (h : Host) : Prop := ∀ r ∈ h.faults, r.fault.isIo = true

theorem strike_from (method : StoreMethod) (path : Path) (rules : List FaultRule) :
    (∀ r ∈ (strike method path rules).1, ∃ r₀ ∈ rules, r₀.fault = r.fault)
      ∧ ∀ f, (strike method path rules).2 = some f → ∃ r₀ ∈ rules, r₀.fault = f := by
  induction rules with
  | nil => simp [strike]
  | cons r rules ih =>
    obtain ⟨ihr, ihf⟩ := ih
    have hrest : ∀ r' ∈ (strike method path rules).1, ∃ r₀ ∈ r :: rules, r₀.fault = r'.fault :=
      fun r' hr' =>
        let ⟨r₀, hr₀, heq⟩ := ihr r' hr'
        ⟨r₀, List.mem_cons_of_mem _ hr₀, heq⟩
    have hfault : ∀ f, (strike method path rules).2 = some f →
        ∃ r₀ ∈ r :: rules, r₀.fault = f := fun f hf =>
      let ⟨r₀, hr₀, heq⟩ := ihf f hf
      ⟨r₀, List.mem_cons_of_mem _ hr₀, heq⟩
    unfold strike
    -- a rule that applies waits once more or strikes, and is counted down; a rule that does not stays
    split
    · split
      · refine ⟨fun r' hr' => ?_, hfault⟩
        rcases List.mem_cons.mp hr' with rfl | hr'
        · exact ⟨r, List.mem_cons_self .., rfl⟩
        · exact hrest r' hr'
      · refine ⟨fun r' hr' => ?_, fun f hf => ?_⟩
        · rcases List.mem_cons.mp hr' with rfl | hr'
          · exact ⟨r, List.mem_cons_self .., rfl⟩
          · exact ⟨r', List.mem_cons_of_mem _ hr', rfl⟩
        · exact ⟨r, List.mem_cons_self .., Option.some.inj hf⟩
    · refine ⟨fun r' hr' => ?_, hfault⟩
      rcases List.mem_cons.mp hr' with rfl | hr'
      · exact ⟨r', List.mem_cons_self .., rfl⟩
      · exact hrest r' hr'

theorem OnlyIo.struck (hio : h.OnlyIo) (method : StoreMethod) (path : Path) :
    (h.struck method path).OnlyIo := by
  intro r hr
  obtain ⟨r₀, hr₀, heq⟩ := (strike_from method path h.faults).1 r hr
  rw [← heq]
  exact hio r₀ hr₀

/-- A fault that is a failed call is the cause of one. -/
theorem OnlyIo.cause (hio : h.OnlyIo) {fault : Fault} (hf : h.fault? method path = some fault) :
    ∃ e, fault.cause path = .io e := by
  obtain ⟨r, hr, heq⟩ := (strike_from method path h.faults).2 fault hf
  have hfault := hio r hr
  rw [heq] at hfault
  cases fault with
  | crash text => simp [Fault.isIo] at hfault
  | _ => exact ⟨_, rfl⟩

/-! ## What calls fail with -/

/-- A failed call, or a crash of what the call was made on. -/
def IsCall : Failure → Prop
  | ⟨.io _, []⟩ => True
  | ⟨.crash _, []⟩ => True
  | _ => False

theorem IsCall.cases (hf : IsCall f) :
    f.notes = [] ∧ ((∃ e, f.cause = .io e) ∨ ∃ message, f.cause = .crash message) := by
  obtain ⟨cause, notes⟩ := f
  cases notes with
  | nil => cases cause <;> simp_all [IsCall]
  | cons note notes => cases cause <;> exact hf.elim

theorem isCall_cause (path : Path) (fault : Fault) : IsCall ⟨fault.cause path, []⟩ := by
  cases fault <;> trivial

theorem blames_meetFault (method : StoreMethod) (path : Path) :
    Blames IsCall (meetFault method path) := by
  intro h f h' hr
  cases hf : h.fault? method path with
  | none => simp [runOn_meetFault_none hf] at hr
  | some fault =>
    rw [runOn_meetFault_some hf] at hr
    obtain ⟨rfl, -⟩ : _ = f ∧ _ = h' := by simpa using hr
    exact isCall_cause path fault

theorem blames_ask (path : Path) (question : Disk → Except Errno α) :
    Blames IsCall (ask path question) :=
  blames_bind blames_get fun _ => blames_ofExcept fun _ _ => trivial

theorem blames_call (path : Path) (change : Disk → Int → Except Errno Disk) :
    Blames IsCall (call path change) := by
  intro h f h' hr
  rcases hc : change h.disk h.clock.now with e | d
  · rw [runOn_call_error hc] at hr
    obtain ⟨rfl, -⟩ : _ = f ∧ _ = h' := by simpa using hr
    trivial
  · simp [runOn_call_ok hc] at hr

theorem blames_makeDirectory (path : Path) : Blames IsCall (makeDirectory path) := by
  intro h f h' hr
  rcases hc : h.disk.makeDirectory path h.clock.now with e | d
  · rw [runOn_makeDirectory_error hc] at hr
    rcases hd : h.disk.hasDirectory path with e' | b
    · rw [hd] at hr
      obtain ⟨rfl, -⟩ : _ = f ∧ _ = h' := by simpa using hr
      trivial
    · rw [hd] at hr
      -- a directory that is there after all is no failure
      cases b with
      | true => simp at hr
      | false =>
        obtain ⟨rfl, -⟩ : _ = f ∧ _ = h' := by simpa using hr
        trivial
  · simp [runOn_makeDirectory_ok hc] at hr

/-! ## Relations between hosts -/

/-- Asking the disk a question changes nothing. -/
theorem respects_ask {R : Host → Host → Prop} (hR : Stepwise R) (path : Path)
    (question : Disk → Except Errno α) : Respects R (ask path question) := by
  intro h
  rw [runOn_ask]
  exact hR.refl h

/-- Where all faults are failed calls, they stay so. -/
def StaysIo (h h' : Host) : Prop := h.OnlyIo → h'.OnlyIo

theorem stepwise_staysIo : Stepwise StaysIo := ⟨fun _ hio => hio, fun h h' hio => h' (h hio)⟩

theorem staysIo_meetFault (method : StoreMethod) (path : Path) :
    Respects StaysIo (meetFault method path) := by
  intro h hio
  cases hf : h.fault? method path with
  | none => rw [runOn_meetFault_none hf]; exact hio.struck method path
  | some fault => rw [runOn_meetFault_some hf]; exact hio.struck method path

theorem staysIo_call (path : Path) (change : Disk → Int → Except Errno Disk) :
    Respects StaysIo (call path change) := by
  intro h hio
  rcases hc : change h.disk h.clock.now with e | d
  · rw [runOn_call_error hc]; exact hio
  · rw [runOn_call_ok hc]; exact hio

theorem staysIo_makeDirectory (path : Path) : Respects StaysIo (makeDirectory path) := by
  intro h hio
  rcases hc : h.disk.makeDirectory path h.clock.now with e | d
  · rw [runOn_makeDirectory_error hc]; exact hio
  · rw [runOn_makeDirectory_ok hc]; exact hio

/-- The disks of two hosts are related. -/
def Across (R : Disk → Disk → Prop) (h h' : Host) : Prop := R h.disk h'.disk

section Across

variable {R : Disk → Disk → Prop}

theorem stepwise_across (hrefl : ∀ d, R d d) (htrans : ∀ {d d' d''}, R d d' → R d' d'' → R d d'') :
    Stepwise (Across R) :=
  ⟨fun h => hrefl h.disk, fun h h' => htrans h h'⟩

variable (hR : Stepwise (Across R))
include hR

theorem respects_meetFault (method : StoreMethod) (path : Path) :
    Respects (Across R) (meetFault method path) := by
  intro h
  cases hf : h.fault? method path with
  | none => rw [runOn_meetFault_none hf]; exact hR.refl h
  | some fault => rw [runOn_meetFault_some hf]; exact hR.refl h

theorem respects_call {change : Disk → Int → Except Errno Disk}
    (hc : ∀ d now d', change d now = .ok d' → R d d') : Respects (Across R) (call path change) := by
  intro h
  rcases hch : change h.disk h.clock.now with e | d
  · rw [runOn_call_error hch]; exact hR.refl h
  · rw [runOn_call_ok hch]; exact hc _ _ _ hch

theorem respects_makeDirectory
    (hc : ∀ d now d', d.makeDirectory path now = .ok d' → R d d') :
    Respects (Across R) (makeDirectory path) := by
  intro h
  rcases hch : h.disk.makeDirectory path h.clock.now with e | d
  · rw [runOn_makeDirectory_error hch]; exact hR.refl h
  · rw [runOn_makeDirectory_ok hch]; exact hc _ _ _ hch

/-- Making a directory with those above it makes one after the other. -/
theorem respects_makeDirectoriesWithin (depth : Nat)
    (hc : ∀ k d now d', d.makeDirectory ⟨path.anchor, path.names.take k⟩ now = .ok d' → R d d') :
    Respects (Across R) (makeDirectoriesWithin depth path) := by
  -- a directory whose parent is missing is made after the parent, one level less deep
  induction depth generalizing path with
  | zero =>
    intro h
    have hself := hc path.names.length
    rw [List.take_length] at hself
    unfold makeDirectoriesWithin
    rw [runOn_bind, runOn_get]
    dsimp only
    split
    · rename_i d hch
      exact hself _ _ _ hch
    · split
      · exact hR.refl h
      · exact hR.refl h
    · exact respects_bind hR (respects_ask hR _ _)
        (fun b => by cases b <;> first | exact respects_pure hR _ | exact respects_fail hR _) h
  | succ depth ih =>
    intro h
    have hself := hc path.names.length
    rw [List.take_length] at hself
    unfold makeDirectoriesWithin
    rw [runOn_bind, runOn_get]
    dsimp only
    split
    · rename_i d hch
      exact hself _ _ _ hch
    · split
      · exact hR.refl h
      · refine respects_bind hR (ih fun k d now d' hk => ?_)
          (fun _ => respects_makeDirectory hR hself) h
        -- a directory on the way to the parent is one on the way to the path
        apply hc (min k (path.names.length - 1)) d now d'
        rw [← hk, Path.parent, List.dropLast_eq_take, List.take_take]
    · exact respects_bind hR (respects_ask hR _ _)
        (fun b => by cases b <;> first | exact respects_pure hR _ | exact respects_fail hR _) h

end Across

/-! ## Legal disks stay legal -/

/-- A legal disk stays legal. -/
def StaysLegal (d d' : Disk) : Prop := d.Legal → d'.Legal

theorem stepwise_staysLegal : Stepwise (Across StaysLegal) :=
  stepwise_across (fun _ hd => hd) fun h h' hd => h' (h hd)

theorem staysLegal_append (hp : path.Straight) (text : Text) :
    Respects (Across StaysLegal) (Journal.appendText path text) :=
  respects_call stepwise_staysLegal fun _ _ _ hc hd => hd.append hp hc

theorem staysLegal_makeDirectories (hp : path.Straight) :
    Respects (Across StaysLegal) (makeDirectories path) := by
  apply respects_makeDirectoriesWithin stepwise_staysLegal _
  intro k d now d' hc hd
  refine hd.makeDirectory (p := ⟨path.anchor, path.names.take k⟩) ⟨hp.root, fun n hn => ?_⟩ hc
  exact hp.names n (List.mem_of_mem_take hn)

end Provenance.Host
