/-
  The counters of a volume are the open descriptors, mode by mode, and the modes exclude each other.

  A call touches one volume and one descriptor of it.  So the invariant is about a volume and the modes
  that it is open in (`Volume.Sound`); opening adds a mode, closing takes one away, and an ioctl or the
  end of an update puts another one in the place of one.

  `Counted` is the same for a device with all its descriptors, and the counter of the device is the
  number of these.  Each call has one lemma (`Sound.open_`, `Sound.close`, ...), and `Sound.step`
  puts them together.
-/
import FlashStack.Ubi.OpenVolume

open Lib

namespace Ubi.Cdev

/-! ## One volume -/

/-- The volume is open in these modes. -/
structure Volume.Sound (vol : Volume) (modes : List Mode) : Prop where
  readers : vol.readers = modes.count .readonly
  writers : vol.writers = modes.count .readwrite
  exclusive : vol.exclusive = modes.count .exclusive
  refCount : vol.refCount = modes.length
  one_writer : modes.count .readwrite ≤ 1
  alone : .exclusive ∈ modes → modes.length = 1

section Volume

variable {vol vol' : Volume} {mode : Mode} {modes modes' : List Mode}

theorem Volume.Sound.perm (h : vol.Sound modes) (hp : modes.Perm modes') : vol.Sound modes' := by
  obtain ⟨hr, hw, he, hc, hone, halone⟩ := h
  rw [hp.count_eq] at hr hw he hone
  rw [hp.length_eq] at hc
  refine ⟨hr, hw, he, hc, hone, fun hmem => ?_⟩
  rw [← hp.length_eq]
  exact halone (hp.mem_iff.mpr hmem)

/-- The counters that the invariant is about. -/
theorem Volume.Sound.congr (h : vol.Sound modes) (hr : vol'.readers = vol.readers)
    (hw : vol'.writers = vol.writers) (he : vol'.exclusive = vol.exclusive)
    (hc : vol'.refCount = vol.refCount) : vol'.Sound modes :=
  ⟨hr.trans h.readers, hw.trans h.writers, he.trans h.exclusive, hc.trans h.refCount, h.one_writer,
    h.alone⟩

/-- Every descriptor is open in one of the three modes. -/
theorem length_eq_counts (modes : List Mode) :
    modes.length = modes.count .readonly + modes.count .readwrite + modes.count .exclusive := by
  induction modes with
  | nil => rfl
  | cons mode modes ih => cases mode <;> simp [ih] <;> omega

/-- While nobody has exclusive access, no descriptor is open for it. -/
theorem Volume.Sound.not_exclusive (h : vol.Sound modes) (hex : ¬vol.exclusive ≠ 0) :
    .exclusive ∉ modes := by
  have hcount := h.exclusive
  refine List.count_eq_zero.mp ?_
  omega

/-- Exclusive access is not shared. -/
theorem Volume.Sound.exclusive_nil (h : vol.Sound (.exclusive :: modes)) : modes = [] := by
  have := h.alone List.mem_cons_self
  rw [List.length_cons] at this
  exact List.length_eq_zero_iff.mp (by omega)

theorem Volume.Sound.exclusive_notMem (h : vol.Sound (mode :: modes)) : .exclusive ∉ modes := by
  intro hmem
  have := h.alone (List.mem_cons_of_mem _ hmem)
  have := List.length_pos_of_mem hmem
  rw [List.length_cons] at *
  omega

/-- A descriptor that may be opened. -/
theorem Volume.Sound.open_ (h : vol.Sound modes) (hopen : vol.open_ mode = some vol') :
    vol'.Sound (mode :: modes) := by
  have hlen := length_eq_counts modes
  obtain ⟨hr, hw, he, hc, hone, halone⟩ := id h
  cases mode with
  | readonly =>
    rw [Volume.open_] at hopen
    split at hopen
    · cases hopen
    rename_i hfree
    obtain rfl := Option.some.inj hopen
    have hno := h.not_exclusive hfree
    refine ⟨?_, ?_, ?_, ?_, ?_, ?_⟩ <;> simp [hr, hw, he, hc, hone, hno]
  | readwrite =>
    rw [Volume.open_] at hopen
    split at hopen
    · cases hopen
    rename_i hfree
    rw [not_or] at hfree
    obtain rfl := Option.some.inj hopen
    have hno := h.not_exclusive hfree.1
    have hnone : modes.count .readwrite = 0 := by omega
    refine ⟨?_, ?_, ?_, ?_, ?_, ?_⟩ <;> simp [hr, hw, he, hc, hno, hnone]
  | exclusive =>
    rw [Volume.open_] at hopen
    split at hopen
    · cases hopen
    rename_i hfree
    rw [not_or, not_or] at hfree
    obtain rfl := Option.some.inj hopen
    -- nobody else has the volume open
    obtain rfl : modes = [] := List.length_eq_zero_iff.mp (by omega)
    exact ⟨hr, hw, rfl, by simp [hc], by simp, by simp⟩

/-- And closed again. -/
theorem Volume.Sound.close (h : vol.Sound (mode :: modes)) : (vol.close mode).Sound modes := by
  have hno := h.exclusive_notMem
  obtain ⟨hr, hw, he, hc, hone, -⟩ := id h
  cases mode with
  | readonly =>
    simp only [List.count_cons, List.length_cons] at hr hw he hc hone
    refine ⟨?_, hw, he, ?_, hone, fun hmem => absurd hmem hno⟩
    · simp [Volume.close, hr]
    · simp [Volume.close, hc]
  | readwrite =>
    simp only [List.count_cons, List.length_cons] at hr hw he hc hone
    refine ⟨hr, ?_, he, ?_, by simp at hone; omega, fun hmem => absurd hmem hno⟩
    · simp [Volume.close, hw]
    · simp [Volume.close, hc]
  | exclusive =>
    obtain rfl := h.exclusive_nil
    exact ⟨hr, hw, rfl, by simp [Volume.close, hc], by simp, by simp⟩

/-- With exclusive access taken the descriptor is the only one. -/
theorem Volume.Sound.getExclusive (h : vol.Sound (mode :: modes)) (hget : vol.getExclusive = some vol') :
    modes = [] ∧ vol'.Sound [.exclusive] := by
  have hlen := length_eq_counts (mode :: modes)
  obtain ⟨hr, hw, he, hc, -, -⟩ := h
  rw [Volume.getExclusive] at hget
  split at hget
  · cases hget
  obtain rfl := Option.some.inj hget
  rw [List.length_cons] at hlen hc
  obtain rfl : modes = [] := List.length_eq_zero_iff.mp (by omega)
  exact ⟨rfl, rfl, rfl, rfl, hc, by simp, by simp⟩

/-- Back to writing, from exclusive access or from writing. -/
theorem Volume.Sound.revokeExclusive (h : vol.Sound (mode :: modes)) (hmode : mode ≠ .readonly) :
    (vol.revokeExclusive .readwrite).Sound (.readwrite :: modes) := by
  have hno := h.exclusive_notMem
  obtain ⟨hr, hw, he, hc, hone, halone⟩ := id h
  cases mode with
  | readonly => exact absurd rfl hmode
  | readwrite =>
    have hnone : modes.count .readwrite = 0 := by
      rw [List.count_cons_self] at hone
      omega
    refine ⟨hr, ?_, ?_, hc, hone, halone⟩
    · rw [List.count_cons_self, hnone]
      rfl
    · rw [List.count_cons_of_ne (by decide), List.count_eq_zero.mpr hno]
      rfl
  | exclusive =>
    obtain rfl := h.exclusive_nil
    exact ⟨hr, rfl, rfl, hc, by simp, by simp⟩

end Volume

/-! ## Volumes and descriptors -/

/-- The modes that a volume is open in. -/
def modesOf (descs : List VolumeDesc) (ubiNum volId : Nat) : List Mode :=
  (descs.filter fun desc => desc.ubiNum = ubiNum ∧ desc.volId = volId).map VolumeDesc.mode

/-- The references to a device. -/
def refsOf (descs : List VolumeDesc) (ubiNum : Nat) : Nat := descs.countP (·.ubiNum = ubiNum)

namespace State

/-- The counters are those of these descriptors. -/
structure Counted (s : State) (descs : List VolumeDesc) : Prop where
  devices : ∀ ubiNum ubi, s.devices ubiNum = some ubi → ubi.refCount = refsOf descs ubiNum
  volumes : ∀ ubiNum volId vol, s.volume ubiNum volId = some vol → vol.Sound (modesOf descs ubiNum volId)

section Counted

variable {s : State} {descs descs' : List VolumeDesc} {desc : VolumeDesc} {vol vol' : Volume}
  {ubiNum volId : Nat}

/-- The modes in which a volume is open. -/
theorem modesOf_cons_self :
    modesOf (desc :: descs) desc.ubiNum desc.volId = desc.mode :: modesOf descs desc.ubiNum desc.volId := by
  simp [modesOf]

theorem modesOf_cons_of_ne (h : ¬(desc.ubiNum = ubiNum ∧ desc.volId = volId)) :
    modesOf (desc :: descs) ubiNum volId = modesOf descs ubiNum volId := by
  simp [modesOf, h]

/-- The order of the descriptors does not matter. -/
theorem Counted.perm (h : s.Counted descs) (hp : descs.Perm descs') : s.Counted descs' := by
  refine ⟨fun u ubi hubi => ?_, fun u v vol hvol => ?_⟩
  · rw [h.devices u ubi hubi, refsOf, hp.countP_eq]
    rfl
  · exact (h.volumes u v vol hvol).perm ((hp.filter _).map _)

/-- The list of descriptors in the state itself does not matter. -/
theorem Counted.congr {s' : State} (h : s.Counted descs) (hdev : s'.devices = s.devices) :
    s'.Counted descs := by
  have hvolume : s'.volume = s.volume := by
    funext u v
    rw [volume, volume, hdev]
  exact ⟨by rw [hdev]; exact h.devices, by rw [hvolume]; exact h.volumes⟩

/-- The references of a device are no part of its volumes. -/
theorem volume_addRef {n : Int} {u v : Nat} : (s.addRef ubiNum n).volume u v = s.volume u v := by
  simp only [volume, addRef, mapDevice]
  by_cases hu : u = ubiNum
  · subst hu
    rw [Function.update_self]
    cases s.devices u <;> rfl
  · rw [Function.update_of_ne hu]

/-- Another volume takes the place of one in the table. -/
theorem volume_setVolume {u v : Nat} (hvol : (s.setVolume ubiNum volId vol).volume u v = some vol') :
    (u = ubiNum ∧ v = volId ∧ vol' = vol) ∨ ¬(ubiNum = u ∧ volId = v) ∧ s.volume u v = some vol' := by
  simp only [volume, setVolume, mapDevice] at hvol ⊢
  by_cases hu : u = ubiNum
  · subst hu
    rw [Function.update_self] at hvol
    cases hdev : s.devices u with
    | none => simp [hdev] at hvol
    | some ubi =>
      by_cases hv : v = volId
      · subst hv
        simp [hdev] at hvol
        exact .inl ⟨rfl, rfl, hvol.symm⟩
      · simp [hdev, Function.update_of_ne hv] at hvol
        exact .inr ⟨fun h => hv h.2.symm, hvol⟩
  · rw [Function.update_of_ne hu] at hvol
    exact .inr ⟨fun h => hu h.1.symm, hvol⟩

theorem volume_setVolume_self (hvol : s.volume ubiNum volId = some vol) :
    (s.setVolume ubiNum volId vol').volume ubiNum volId = some vol' := by
  obtain ⟨ubi, hubi, -⟩ := Option.bind_eq_some_iff.mp hvol
  simp [volume, setVolume, mapDevice, hubi]

/-- Another device's references are those it had. -/
theorem refCount_mapDevice {f : Device → Device} {u : Nat} {ubi : Device}
    (h : (s.mapDevice ubiNum f).devices u = some ubi) :
    ∃ ubi₀, s.devices u = some ubi₀ ∧ ubi = if u = ubiNum then f ubi₀ else ubi₀ := by
  simp only [mapDevice] at h
  by_cases hu : u = ubiNum
  · subst hu
    rw [Function.update_self] at h
    obtain ⟨ubi₀, hubi₀, rfl⟩ := Option.map_eq_some_iff.mp h
    exact ⟨ubi₀, hubi₀, by rw [if_pos rfl]⟩
  · rw [Function.update_of_ne hu] at h
    exact ⟨ubi, h, by rw [if_neg hu]⟩

/-- A descriptor more or less, or another one in its place: what the volume and the device have to do. -/
theorem Counted.setVolume (h : s.Counted descs) (hvol : vol.Sound (modesOf descs' ubiNum volId))
    (hrefs : ∀ u, refsOf descs' u = refsOf descs u)
    (hother : ∀ u v, ¬(ubiNum = u ∧ volId = v) → modesOf descs' u v = modesOf descs u v) :
    (s.setVolume ubiNum volId vol).Counted descs' := by
  refine ⟨fun u ubi hubi => ?_, fun u v vol' hvol' => ?_⟩
  · obtain ⟨ubi₀, hubi₀, rfl⟩ := refCount_mapDevice hubi
    rw [hrefs, ← h.devices u ubi₀ hubi₀]
    split <;> rfl
  · rcases volume_setVolume hvol' with ⟨rfl, rfl, rfl⟩ | ⟨hne, hold⟩
    · exact hvol
    · rw [hother u v hne]
      exact h.volumes u v vol' hold

theorem Counted.setVolume_addRef {n : Int} (h : s.Counted descs)
    (hvol : vol.Sound (modesOf descs' ubiNum volId))
    (hrefs : ∀ u, (refsOf descs' u : Int) = refsOf descs u + if u = ubiNum then n else 0)
    (hother : ∀ u v, ¬(ubiNum = u ∧ volId = v) → modesOf descs' u v = modesOf descs u v) :
    ((s.setVolume ubiNum volId vol).addRef ubiNum n).Counted descs' := by
  refine ⟨fun u ubi hubi => ?_, fun u v vol' hvol' => ?_⟩
  · obtain ⟨ubi₁, hubi₁, rfl⟩ := refCount_mapDevice hubi
    obtain ⟨ubi₀, hubi₀, rfl⟩ := refCount_mapDevice hubi₁
    have hold := h.devices u ubi₀ hubi₀
    rw [hrefs, ← hold]
    split <;> simp
  · rw [volume_addRef] at hvol'
    rcases volume_setVolume hvol' with ⟨rfl, rfl, rfl⟩ | ⟨hne, hold⟩
    · exact hvol
    · rw [hother u v hne]
      exact h.volumes u v vol' hold

theorem addRef_setVolume {n : Int} : (s.addRef ubiNum n).setVolume ubiNum volId vol =
    (s.setVolume ubiNum volId vol).addRef ubiNum n := by
  simp [addRef, setVolume, mapDevice, Function.comp_def]

/-! ## The calls -/

/-- A descriptor counts for its own device. -/
theorem refsOf_cons (u : Nat) :
    refsOf (desc :: descs) u = refsOf descs u + if desc.ubiNum = u then 1 else 0 := by
  simp [refsOf, List.countP_cons]

/-- A descriptor is closed. -/
theorem Counted.close (h : s.Counted (desc :: descs))
    (hvol : s.volume desc.ubiNum desc.volId = some vol) : (s.ubiCloseVolume desc).Counted descs := by
  have hsound := h.volumes _ _ _ hvol
  rw [modesOf_cons_self] at hsound
  rw [ubiCloseVolume, hvol]
  refine h.setVolume_addRef hsound.close (fun u => ?_) (fun u v hne => (modesOf_cons_of_ne hne).symm)
  rw [refsOf_cons]
  by_cases hu : u = desc.ubiNum
  · rw [if_pos hu, if_pos hu.symm]
    omega
  · rw [if_neg hu, if_neg (Ne.symm hu)]
    omega

/-- A descriptor has its mode changed, and its volume follows. -/
theorem Counted.put {i : Nat} {desc' : VolumeDesc} (h : s.Counted s.descs) (hi : s.descs[i]? = some desc)
    (hvol : s.volume desc.ubiNum desc.volId = some vol) (hubi : desc'.ubiNum = desc.ubiNum)
    (hid : desc'.volId = desc.volId)
    (hsound : ∀ modes, vol.Sound (desc.mode :: modes) → vol'.Sound (desc'.mode :: modes)) :
    (s.put i desc' vol').Counted (s.put i desc' vol').descs := by
  obtain ⟨hlt, rfl⟩ := List.getElem?_eq_some_iff.mp hi
  have hfrom := h.perm (List.getElem_cons_eraseIdx_perm hlt).symm
  have hto : (s.descs.set i desc').Perm (desc' :: s.descs.eraseIdx i) := List.set_perm_cons_eraseIdx hlt desc'
  have hold := hfrom.volumes _ _ _ hvol
  rw [modesOf_cons_self] at hold
  refine Counted.perm ?_ hto.symm
  have hset : (s.setVolume desc'.ubiNum desc'.volId vol').Counted (desc' :: s.descs.eraseIdx i) := by
    refine hfrom.setVolume ?_ (fun u => ?_) (fun u v hne => ?_)
    · rw [modesOf_cons_self, hubi, hid]
      exact hsound _ hold
    · rw [refsOf_cons, refsOf_cons, hubi]
    · rw [modesOf_cons_of_ne hne, modesOf_cons_of_ne (by rwa [← hubi, ← hid])]
  exact hset.congr rfl

/-- A volume is opened. -/
theorem Counted.open_ {env : OpenEnv} {mode : Mode} {opener : Opener} (h : s.Counted s.descs)
    (hvol : s.volume ubiNum volId = some vol) (hopen : vol.open_ mode = some vol') :
    Counted (((s.addRef ubiNum 1).setVolume ubiNum volId vol').checkOpened env
      ⟨ubiNum, volId, mode, opener⟩ vol').2
    (((s.addRef ubiNum 1).setVolume ubiNum volId vol').checkOpened env
      ⟨ubiNum, volId, mode, opener⟩ vol').2.descs := by
  let desc : VolumeDesc := ⟨ubiNum, volId, mode, opener⟩
  have hopened : ((s.addRef ubiNum 1).setVolume ubiNum volId vol').Counted (desc :: s.descs) := by
    rw [addRef_setVolume]
    refine h.setVolume_addRef ?_ (fun u => ?_) (fun u v hne => modesOf_cons_of_ne hne)
    · rw [show modesOf (desc :: s.descs) ubiNum volId = mode :: modesOf s.descs ubiNum volId from
        modesOf_cons_self]
      exact (h.volumes _ _ _ hvol).open_ hopen
    · rw [refsOf_cons]
      by_cases hu : u = ubiNum
      · subst hu
        simp [desc]
      · rw [if_neg hu, if_neg (Ne.symm hu)]
        omega
  have hset : ((s.addRef ubiNum 1).setVolume ubiNum volId vol').volume ubiNum volId = some vol' :=
    volume_setVolume_self (volume_addRef.trans hvol)
  rw [checkOpened]
  split
  · exact hopened.congr rfl
  split
  · -- the volume cannot be checked
    have hclosed := hopened.close hset
    rw [ubiCloseVolume, hset] at hclosed ⊢
    exact hclosed
  · refine Counted.congr (hopened.setVolume ?_ (fun _ => rfl) fun _ _ _ => rfl) rfl
    exact (hopened.volumes _ _ _ hset).congr rfl rfl rfl rfl

end Counted

/-- **The invariant**: the counters are those of the open descriptors, and a file that is open for writing
    is never down to reading. -/
structure Sound (s : State) : Prop where
  counted : s.Counted s.descs
  writable : ∀ desc ∈ s.descs, desc.opener = .file true → desc.mode ≠ .readonly

section Sound

variable {s s' : State} {desc : VolumeDesc} {ubi : Device} {vol : Volume} {i : Nat}

/-- A call on an open descriptor. -/
theorem onDesc_eq_some {file : Bool} {f : VolumeDesc → Device → Volume → State}
    (h : s.onDesc i file f = some s') :
    ∃ desc ubi vol, s.descs[i]? = some desc ∧ s.volume desc.ubiNum desc.volId = some vol ∧
      s' = f desc ubi vol := by
  simp only [onDesc, Option.bind_eq_bind, Option.bind_eq_some_iff, Option.ite_none_right_eq_some,
    Option.pure_def, Option.some.injEq] at h
  obtain ⟨desc, hdesc, -, ubi, hubi, vol, hvol, rfl⟩ := h
  exact ⟨desc, ubi, vol, hdesc, by rw [volume, hubi]; exact hvol, rfl⟩

/-- A descriptor changes its mode along with its volume. -/
theorem Sound.put {desc' : VolumeDesc} {vol' : Volume} (h : s.Sound) (hi : s.descs[i]? = some desc)
    (hvol : s.volume desc.ubiNum desc.volId = some vol) (hubi : desc'.ubiNum = desc.ubiNum)
    (hid : desc'.volId = desc.volId) (hmode : desc'.mode ≠ .readonly ∨ desc' = desc)
    (hsound : ∀ modes, vol.Sound (desc.mode :: modes) → vol'.Sound (desc'.mode :: modes)) :
    (s.put i desc' vol').Sound := by
  refine ⟨h.counted.put hi hvol hubi hid hsound, fun d hd hopener => ?_⟩
  rcases List.mem_or_eq_of_mem_set hd with hd | rfl
  · exact h.writable d hd hopener
  rcases hmode with hmode | rfl
  · exact hmode
  · exact h.writable d (List.mem_of_getElem? hi) hopener

/-- The volume changes in what is not counted. -/
theorem Sound.putSame {vol' : Volume} (h : s.Sound) (hi : s.descs[i]? = some desc)
    (hvol : s.volume desc.ubiNum desc.volId = some vol) (hr : vol'.readers = vol.readers)
    (hw : vol'.writers = vol.writers) (he : vol'.exclusive = vol.exclusive)
    (hc : vol'.refCount = vol.refCount) : (s.put i desc vol').Sound :=
  h.put hi hvol rfl rfl (.inr rfl) fun _ hs => hs.congr hr hw he hc

/-- Opening, with every error on the way. -/
theorem Sound.ubiOpenVolume {env : OpenEnv} {opener : Opener} {ubiNum volId mode : Int} (h : s.Sound)
    (hmode : opener = .file true → mode = 2) : (s.ubiOpenVolume env opener ubiNum volId mode).2.Sound := by
  rw [State.ubiOpenVolume]
  split
  · exact h
  split
  · exact h
  rename_i m hm
  split
  · exact h
  rename_i ubi hubi
  split
  · exact h
  split
  · exact h
  split
  · exact h
  split
  · exact h
  rename_i vol hvol
  split
  · exact h
  rename_i vol' hopen
  have hvolume : s.volume ubiNum.toNat volId.toNat = some vol := by
    rw [volume, hubi]
    exact hvol
  refine ⟨h.counted.open_ hvolume hopen, fun d hd hopener => ?_⟩
  have hfirst : opener = .file true → m ≠ .readonly := by
    intro hfile
    rw [hmode hfile] at hm
    obtain rfl : Mode.readwrite = m := Option.some.inj hm
    decide
  have hcases : d = ⟨ubiNum.toNat, volId.toNat, m, opener⟩ ∨ d ∈ s.descs := by
    rw [checkOpened] at hd
    split at hd
    · exact List.mem_cons.mp hd
    split at hd
    · right
      rw [ubiCloseVolume] at hd
      split at hd
      · exact hd
      · exact hd
    · exact List.mem_cons.mp hd
  rcases hcases with rfl | hold
  · exact hfirst hopener
  · exact h.writable d hold hopener

/-- The descriptor is taken from the list, and then the volume is left. -/
theorem Sound.close (h : s.Sound) (hi : s.descs[i]? = some desc)
    (hvol : s.volume desc.ubiNum desc.volId = some vol) :
    (({ s with descs := s.descs.eraseIdx i } : State).ubiCloseVolume desc).Sound := by
  obtain ⟨hlt, rfl⟩ := List.getElem?_eq_some_iff.mp hi
  have hcounted : ({ s with descs := s.descs.eraseIdx i } : State).Counted (s.descs[i] :: s.descs.eraseIdx i) :=
    (h.counted.perm (List.getElem_cons_eraseIdx_perm hlt).symm).congr rfl
  have hclosed := hcounted.close hvol
  have hdescs : (({ s with descs := s.descs.eraseIdx i } : State).ubiCloseVolume s.descs[i]).descs =
      s.descs.eraseIdx i := by
    rw [ubiCloseVolume]
    split <;> rfl
  refine ⟨by rw [hdescs]; exact hclosed, fun d hd => ?_⟩
  rw [hdescs] at hd
  exact h.writable d (List.mem_of_mem_eraseIdx hd)

/-- What is cancelled when a file is closed is not counted. -/
theorem Sound.release (h : s.Sound) (hi : s.descs[i]? = some desc)
    (hvol : s.volume desc.ubiNum desc.volId = some vol) :
    (({ s with descs := s.descs.eraseIdx i } : State).volCdevRelease desc).Sound := by
  have hvol' : ({ s with descs := s.descs.eraseIdx i } : State).volume desc.ubiNum desc.volId = some vol := hvol
  rw [volCdevRelease, hvol']
  dsimp only
  have hcancel : ∀ vol' : Volume, vol'.readers = vol.readers → vol'.writers = vol.writers →
      vol'.exclusive = vol.exclusive → vol'.refCount = vol.refCount →
      ((({ s with descs := s.descs.eraseIdx i } : State).setVolume desc.ubiNum desc.volId vol').ubiCloseVolume
        desc).Sound := by
    intro vol' hr hw he hc
    have hput := h.putSame hi hvol hr hw he hc
    have hset : (s.put i desc vol').volume desc.ubiNum desc.volId = some vol' := volume_setVolume_self hvol
    have hlt := (List.getElem?_eq_some_iff.mp hi).1
    have hi' : (s.put i desc vol').descs[i]? = some desc := by
      simp [State.put, hlt]
    have hclose := hput.close hi' hset
    simpa [State.put, State.setVolume, State.mapDevice, List.eraseIdx_set_eq] using hclose
  split
  · exact hcancel _ rfl rfl rfl rfl
  split
  · exact hcancel _ rfl rfl rfl rfl
  · exact hcancel _ rfl rfl rfl rfl

/-- A write to the character device, which may end an update. -/
theorem Sound.volCdevWrite {env : WriteEnv} {count : Nat} (h : s.Sound) (hi : s.descs[i]? = some desc)
    (hvol : s.volume desc.ubiNum desc.volId = some vol) (hfile : desc.opener = .file true) :
    (s.volCdevWrite env count i desc vol).2.Sound := by
  have hmode := h.writable desc (List.mem_of_getElem? hi) hfile
  rw [State.volCdevWrite]
  split
  · exact h
  -- the end of the operation is noted first
  generalize hvol₁ : (if vol.updating then { vol with updating := vol.updating && !env.finished }
    else { vol with changingLeb := vol.changingLeb && !env.finished }) = vol₁
  have hsame : vol₁.readers = vol.readers ∧ vol₁.writers = vol.writers ∧ vol₁.exclusive = vol.exclusive ∧
      vol₁.refCount = vol.refCount := by
    rw [← hvol₁]
    split <;> exact ⟨rfl, rfl, rfl, rfl⟩
  obtain ⟨hr, hw, he, hc⟩ := hsame
  have hkept := h.putSame hi hvol hr hw he hc
  have hrevoked : ∀ vol₂ : Volume, vol₂.readers = vol₁.readers → vol₂.writers = vol₁.writers →
      vol₂.exclusive = vol₁.exclusive → vol₂.refCount = vol₁.refCount →
      (s.put i { desc with mode := .readwrite } (vol₂.revokeExclusive .readwrite)).Sound := by
    intro vol₂ hr₂ hw₂ he₂ hc₂
    refine h.put hi hvol rfl rfl (.inl (by simp)) fun modes hs => ?_
    exact ((hs.congr hr hw he hc).congr hr₂ hw₂ he₂ hc₂).revokeExclusive hmode
  dsimp only
  cases env.more with
  | error err => exact hkept
  | ok n =>
    dsimp only
    split
    · exact hkept
    split
    · exact hrevoked vol₁ rfl rfl rfl rfl
    cases env.check with
    | error err => exact hkept
    | ok corrupted => exact hrevoked _ rfl rfl rfl rfl

/-- Exclusive access is taken, kept while data is to come, and given back if none is. -/
theorem Sound.startExclusive {start : Volume → Option Errno × Volume} {bytes : Int} (h : s.Sound)
    (hi : s.descs[i]? = some desc) (hvol : s.volume desc.ubiNum desc.volId = some vol)
    (hstart : ∀ vol modes, vol.Sound modes → (start vol).2.Sound modes) :
    (s.startExclusive start bytes i desc vol).2.Sound := by
  rw [State.startExclusive]
  split
  · exact h
  rename_i vol' hget
  have hexcl : ∀ modes, vol.Sound (desc.mode :: modes) →
      modes = [] ∧ (start vol').2.Sound [.exclusive] := by
    intro modes hs
    obtain ⟨rfl, hs'⟩ := hs.getExclusive hget
    exact ⟨rfl, hstart _ _ hs'⟩
  dsimp only
  split
  · refine h.put hi hvol rfl rfl (.inl (by simp)) fun modes hs => ?_
    obtain ⟨rfl, hs'⟩ := hexcl modes hs
    exact hs'.revokeExclusive (by simp)
  · refine h.put hi hvol rfl rfl (.inl (by simp)) fun modes hs => ?_
    obtain ⟨rfl, hs'⟩ := hexcl modes hs
    exact hs'

/-- The start of an update. -/
theorem Sound.iocVolup {capable fault : Bool} {err : Option Errno} {bytes : Int} (h : s.Sound)
    (hi : s.descs[i]? = some desc) (hvol : s.volume desc.ubiNum desc.volId = some vol) :
    (s.iocVolup capable fault err bytes i desc ubi vol).2.Sound := by
  rw [State.iocVolup]
  split
  · exact h
  split
  · exact h
  split
  · exact h
  split
  · exact h
  · exact h.startExclusive hi hvol fun _ _ hs => hs.congr rfl rfl rfl rfl

/-- The start of a LEB change. -/
theorem Sound.iocEbch {fault : Bool} {err : Option Errno} {req : LebChangeReq} (h : s.Sound)
    (hi : s.descs[i]? = some desc) (hvol : s.volume desc.ubiNum desc.volId = some vol) :
    (s.iocEbch fault err req i desc vol).2.Sound := by
  rw [State.iocEbch]
  split
  · exact h
  split
  · exact h
  split
  · exact h
  split
  · exact h
  refine h.startExclusive hi hvol fun _ _ hs => ?_
  rw [ubiStartLebChange]
  dsimp only
  split
  · exact hs
  · exact hs.congr rfl rfl rfl rfl

/-- Setting a property of a volume. -/
theorem Sound.iocSetVolProp {fault : Bool} {property : Nat} {value : Int} (h : s.Sound)
    (hi : s.descs[i]? = some desc) (hvol : s.volume desc.ubiNum desc.volId = some vol) :
    (s.iocSetVolProp fault property value i desc vol).2.Sound := by
  rw [State.iocSetVolProp]
  split
  · exact h
  split
  · exact h.putSame hi hvol rfl rfl rfl rfl
  · exact h

/-- Any call of any process. -/
theorem Sound.step {call : Call} (h : s.Sound) (hstep : s.step call = some s') : s'.Sound := by
  cases call with
  | openVolume env ubiNum volId mode =>
    obtain rfl := Option.some.inj hstep
    exact h.ubiOpenVolume (by simp)
  | closeVolume i =>
    obtain ⟨desc, ubi, vol, hi, hvol, rfl⟩ := onDesc_eq_some hstep
    exact h.close hi hvol
  | cdevOpen env fmodeWrite ubiNum volId =>
    obtain rfl := Option.some.inj hstep
    refine h.ubiOpenVolume fun hfile => ?_
    rw [Opener.file.inj hfile]
    rfl
  | cdevRelease i =>
    obtain ⟨desc, ubi, vol, hi, hvol, rfl⟩ := onDesc_eq_some hstep
    exact h.release hi hvol
  | cdevWrite env count i =>
    rw [State.step] at hstep
    split at hstep
    swap
    · cases hstep
    rename_i hfile
    obtain ⟨desc, ubi, vol, hi, hvol, rfl⟩ := onDesc_eq_some hstep
    rw [hi] at hfile
    exact h.volCdevWrite hi hvol (Option.some.inj hfile)
  | volup capable fault err bytes i =>
    obtain ⟨desc, ubi, vol, hi, hvol, rfl⟩ := onDesc_eq_some hstep
    exact h.iocVolup hi hvol
  | ebch fault err req i =>
    obtain ⟨desc, ubi, vol, hi, hvol, rfl⟩ := onDesc_eq_some hstep
    exact h.iocEbch hi hvol
  | setVolProp fault property value i =>
    obtain ⟨desc, ubi, vol, hi, hvol, rfl⟩ := onDesc_eq_some hstep
    exact h.iocSetVolProp hi hvol

/-- Nothing is open at first. -/
theorem Closed.sound (h : s.Closed) : s.Sound := by
  refine ⟨⟨fun u ubi hubi => ?_, fun u v vol hvol => ?_⟩, by simp [h.descs]⟩
  · rw [h.devices u ubi hubi, h.descs]
    rfl
  · obtain ⟨hr, hw, he, hc⟩ := h.volumes u v vol hvol
    rw [h.descs]
    exact ⟨hr, hw, he, hc, by simp [modesOf], by simp [modesOf]⟩

end Sound

end State

/-- **Open modes exclude each other**: whatever is opened, closed, updated and changed, a volume has one
    writer at most, or one user that has it for itself, and the counters count the open descriptors. -/
theorem open_modes_exclude {s : State}
    (h : Reach State.Closed (fun s s' => ∃ call, s.step call = some s') s) :
    (∀ ubiNum ubi, s.devices ubiNum = some ubi → ubi.refCount = refsOf s.descs ubiNum) ∧
      ∀ ubiNum volId vol, s.volume ubiNum volId = some vol →
        (vol.exclusive = 0 ∨ vol.exclusive = 1) ∧ (vol.writers = 0 ∨ vol.writers = 1) ∧
        (vol.exclusive = 1 →
          vol.readers = 0 ∧ vol.writers = 0 ∧ (modesOf s.descs ubiNum volId).length = 1) ∧
        vol.readers = (modesOf s.descs ubiNum volId).count .readonly ∧
        vol.writers = (modesOf s.descs ubiNum volId).count .readwrite ∧
        vol.exclusive = (modesOf s.descs ubiNum volId).count .exclusive ∧
        vol.refCount = (modesOf s.descs ubiNum volId).length := by
  have hsound : s.Sound := h.invariant (fun _ => State.Closed.sound) fun _ _ hs ⟨_, hcall⟩ => hs.step hcall
  refine ⟨hsound.counted.devices, fun u v vol hvol => ?_⟩
  obtain ⟨hr, hw, he, hc, hone, halone⟩ := hsound.counted.volumes u v vol hvol
  have hlen := length_eq_counts (modesOf s.descs u v)
  have hex : 0 < vol.exclusive → (modesOf s.descs u v).length = 1 := by
    intro hpos
    exact halone (List.count_pos_iff.mp (by omega))
  refine ⟨?_, ?_, fun h1 => ?_, hr, hw, he, hc⟩
  · by_cases hpos : 0 < vol.exclusive
    · have := hex hpos
      omega
    · omega
  · omega
  · have := hex (by omega)
    omega

/-! ## An update that has begun -/

/-- A volume that nobody has open. -/
def quietVolume : Volume :=
  ⟨0, 0, 0, 0, 10, 4096, 0, false, false, true, false, false, false⟩

/-- A device with one volume, and nothing open. -/
def quiet : State :=
  ⟨fun ubiNum => if ubiNum = 0 then
    some ⟨128, 4096, 0, fun volId => if volId = 0 then some quietVolume else none⟩ else none, []⟩

/-- The volume is opened for writing, -/
def opened : State := (quiet.volCdevOpen ⟨false, false, .ok false⟩ true 0 0).2

/-- and told to expect 100 bytes. -/
def awaiting : State :=
  (opened.iocVolup true false none 100 0 ⟨0, 0, .readwrite, .file true⟩ ⟨128, 4096, 1, fun _ => none⟩
    { quietVolume with writers := 1, refCount := 1 }).2

theorem quiet_closed : quiet.Closed := by
  refine ⟨rfl, fun u ubi hubi => ?_, fun u v vol hvol => ?_⟩
  · simp only [quiet, Option.ite_none_right_eq_some, Option.some.injEq] at hubi
    rw [← hubi.2]
  · have hsame : vol = quietVolume := by
      simp only [State.volume, quiet, Option.bind_eq_some_iff, Option.ite_none_right_eq_some,
        Option.some.injEq] at hvol
      obtain ⟨_, ⟨_, rfl⟩, hvol⟩ := hvol
      dsimp only at hvol
      rw [Option.ite_none_right_eq_some] at hvol
      exact (Option.some.inj hvol.2).symm
    rw [hsame]
    exact ⟨rfl, rfl, rfl, rfl⟩

/-- A volume that awaits data for an update is open once, exclusively. -/
theorem open_modes_exclude_awaiting :
    (awaiting.volume 0 0).map Volume.exclusive = some 1 ∧ (modesOf awaiting.descs 0 0).length = 1 := by
  have hopened : Reach State.Closed (fun s s' => ∃ call, s.step call = some s') opened :=
    (Reach.init quiet_closed).step ⟨.cdevOpen ⟨false, false, .ok false⟩ true 0 0, rfl⟩
  have hawaiting : Reach State.Closed (fun s s' => ∃ call, s.step call = some s') awaiting :=
    hopened.step ⟨.volup true false none 100 0, rfl⟩
  obtain ⟨vol, hvol⟩ : ∃ vol, awaiting.volume 0 0 = some vol := ⟨_, rfl⟩
  have hone : (awaiting.volume 0 0).map Volume.exclusive = some 1 := rfl
  have hex : vol.exclusive = 1 := by
    rw [hvol] at hone
    exact Option.some.inj hone
  exact ⟨hone, (((open_modes_exclude hawaiting).2 0 0 vol hvol).2.2.1 hex).2.2⟩

end Ubi.Cdev
