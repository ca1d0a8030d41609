/-
Mount points (`resolve_mount` of `fs/vfs.rs` and of `fs/namespace.rs`).

Both tables take the longest mount point that the path begins with as a text, and return what is left of the text. The mount
point should be the longest one whose components the path begins with (`Whole`).
-/
import Kontsnor.Fs.PathSpec
import Kontsnor.Fs.Vfs

namespace Kontsnor.Fs

open List Option

variable {ι : Type} {mounts : List (Mount ι)} {path : Path}

/-! ## The table of a namespace -/

namespace MountNamespace

/-- the mount point takes the place of the best one so far if that is shorter -/
def longer (path : Path) (best : Option (Mount ι)) (m : Mount ι) : Option (Mount ι) :=
  if m.path.isPrefixOf path then
    let dominated := match best with
      | none => true
      | some b => decide (b.path.length < m.path.length)
    if dominated then some m else best
  else best

def resolveMount (mounts : List (Mount ι)) (path : Path) : Option (Option ι × Path) :=
  (mounts.foldl (longer path) none).map fun m =>
    let remaining := path.drop m.path.length
    (m.root, if remaining = [] then ['/'] else remaining)

theorem longer_eq (path : Path) (best : Option (Mount ι)) (m : Mount ι) : longer path best m = longerMount path best m := by
  unfold longer longerMount
  split_ifs with hprefix
  · cases best with
    | none => rfl
    | some b =>
      dsimp only
      by_cases hlt : b.path.length < m.path.length
      · rw [if_pos (decide_eq_true hlt), if_neg (Nat.not_le.2 hlt)]
      · rw [if_neg (by simpa using hlt), if_pos (Nat.not_lt.1 hlt)]
  · rfl

end MountNamespace

/-! ## Which mount point is taken -/

theorem longerMount_cases (path : Path) (best : Option (Mount ι)) (m : Mount ι) :
    longerMount path best m = best ∨ longerMount path best m = some m := by
  unfold longerMount
  cases best <;> dsimp only <;> split_ifs <;> simp

theorem bestMount_mem : ∀ b ∈ bestMount mounts path, b ∈ mounts := by
  refine foldlRecOn (motive := fun best => ∀ b ∈ best, b ∈ mounts) mounts (longerMount path) (fun b hb => ?_) ?_
  · cases hb
  · intro best hbest m hm b hb
    rcases longerMount_cases path best m with h | h <;> rw [h] at hb
    · exact hbest b hb
    · cases hb
      exact hm

/-- the text of a mount point, as long as that of any other that the path begins with -/
structure Longest (mounts : List (Mount ι)) (path : Path) (b : Mount ι) : Prop where
  mem : b ∈ mounts
  isPrefix : b.path <+: path
  longest : ∀ m ∈ mounts, m.path <+: path → m.path.length ≤ b.path.length

theorem longerMount_longest {seen : List (Mount ι)} {best : Option (Mount ι)} (m : Mount ι)
    (hbest : ∀ b ∈ best, Longest seen path b) (hnone : best = none → ∀ m ∈ seen, ¬m.path <+: path) :
    (∀ b ∈ longerMount path best m, Longest (seen ++ [m]) path b) ∧
      (longerMount path best m = none → ∀ m' ∈ seen ++ [m], ¬m'.path <+: path) := by
  have hold : ∀ b ∈ best, (m.path <+: path → m.path.length ≤ b.path.length) → Longest (seen ++ [m]) path b := by
    intro b hb hm
    obtain ⟨hmem, hprefix, hlongest⟩ := hbest b hb
    refine ⟨mem_append_left _ hmem, hprefix, fun m' hm' h' => ?_⟩
    rcases mem_append.1 hm' with hm' | hm'
    · exact hlongest m' hm' h'
    · rw [mem_singleton.1 hm'] at h' ⊢
      exact hm h'
  rw [longerMount_eq]
  split_ifs with hprefix
  · have hnew : (∀ m' ∈ seen, m'.path <+: path → m'.path.length ≤ m.path.length) → Longest (seen ++ [m]) path m := by
      intro hshort
      refine ⟨mem_append_right _ (mem_singleton_self m), hprefix, fun m' hm' h' => ?_⟩
      rcases mem_append.1 hm' with hm' | hm'
      · exact hshort m' hm' h'
      · rw [mem_singleton.1 hm']
    cases best with
    | none =>
      refine ⟨?_, nofun⟩
      rintro b ⟨⟩
      exact hnew fun m' hm' h' => absurd h' (hnone rfl m' hm')
    | some b =>
      dsimp only
      split_ifs with hle
      · refine ⟨?_, nofun⟩
        rintro b' ⟨⟩
        exact hold b rfl fun _ => hle
      · refine ⟨?_, nofun⟩
        rintro b' ⟨⟩
        refine hnew fun m' hm' h' => ?_
        have := (hbest b rfl).longest m' hm' h'
        omega
  · refine ⟨fun b hb => hold b hb fun h => absurd h hprefix, fun h m' hm' => ?_⟩
    rcases mem_append.1 hm' with hm' | hm'
    · exact hnone h m' hm'
    · rw [mem_singleton.1 hm']
      exact hprefix

section

variable (mounts : List (Mount ι))

theorem bestMount_spec (path : Path) :
    (∀ b ∈ bestMount mounts path, Longest mounts path b) ∧
      (bestMount mounts path = none → ∀ m ∈ mounts, ¬m.path <+: path) := by
  have hfold : ∀ (ms seen : List (Mount ι)) (best : Option (Mount ι)), (∀ b ∈ best, Longest seen path b) →
      (best = none → ∀ m ∈ seen, ¬m.path <+: path) →
      (∀ b ∈ ms.foldl (longerMount path) best, Longest (seen ++ ms) path b) ∧
        (ms.foldl (longerMount path) best = none → ∀ m ∈ seen ++ ms, ¬m.path <+: path) := by
    intro ms
    induction ms with
    | nil =>
      intro seen best hbest hnone
      rw [append_nil]
      exact ⟨hbest, hnone⟩
    | cons m ms ih =>
      intro seen best hbest hnone
      obtain ⟨hbest', hnone'⟩ := longerMount_longest m hbest hnone
      have hrest := ih (seen ++ [m]) _ hbest' hnone'
      rw [append_assoc, singleton_append] at hrest
      exact hrest
  exact hfold mounts [] none nofun nofun

/-! ## Text and components -/

/-- of clean paths, the one with fewer components is a text that the other begins with -/
theorem isPrefix_of_parts {m : Path} (hm : CleanPath m) (hp : CleanPath path) (h : parts m <+: parts path) : m <+: path := by
  obtain ⟨rest, hrest⟩ := h
  rw [hm.eq, hp.eq, ← hrest]
  by_cases hm0 : parts m = []
  · rw [hm0, nil_append]
    exact ⟨joinComponents rest, rfl⟩
  by_cases hr0 : rest = []
  · rw [hr0, append_nil]
  · rw [render_append hm0 hr0]
    exact prefix_append _ _

theorem length_parts_le_of_length_le {m b : Path} (hm : m <+: path) (hb : b <+: path) (hle : m.length ≤ b.length) :
    (parts m).length ≤ (parts b).length := by
  obtain ⟨rest, rfl⟩ := prefix_of_prefix_length_le hm hb hle
  rcases parts_append m rest with heq | ⟨x, u, w, y, hparts, -, hall, -⟩
  · rw [heq, length_append]
    omega
  · simp only [hparts, hall, length_append, length_cons, length_nil]
    omega

/-- a remainder with components of the path is what follows whole components -/
theorem isPrefix_of_remainder {b rest : Path} {n : ℕ} (h : parts rest = (parts (b ++ rest)).drop n) :
    parts b <+: parts (b ++ rest) := by
  rcases parts_append b rest with heq | ⟨x, u, w, y, hb, hrest, hall, hw⟩
  · rw [heq]
    exact prefix_append _ _
  · -- the first component of the remainder would be a component of the path
    exfalso
    rw [hrest, hall] at h
    have hlen := congrArg length h
    rw [length_drop, length_append, length_cons, length_cons] at hlen
    have hn : n = x.length := by omega
    rw [hn, drop_left, cons.injEq] at h
    have hu : u = [] := by
      have := congrArg length h.1
      rw [length_append] at this
      exact eq_nil_of_length_eq_zero (by omega)
    have hmem : u ∈ parts b := by rw [hb]; simp
    exact (mem_parts hmem).1 hu

/-! ## Whole components -/

/-- the mount point with the most components that the path begins with, and the components behind it -/
def Whole (path : Path) (r : Option (Option ι × Path)) : Prop :=
  ∃ m ∈ mounts, parts m.path <+: parts path ∧
    (∀ m' ∈ mounts, parts m'.path <+: parts path → (parts m'.path).length ≤ (parts m.path).length) ∧
    ∃ remaining, r = some (m.root, remaining) ∧ parts remaining = (parts path).drop (parts m.path).length

/-- a mount point that ends within a component of the path is not the longest that the path begins with -/
def Unsplit (path : Path) : Prop :=
  ∀ m ∈ mounts, m.path <+: path → ¬parts m.path <+: parts path →
    ∃ m' ∈ mounts, parts m'.path <+: parts path ∧ m.path.length < m'.path.length

end

def answer (path : Path) (m : Mount ι) : Option ι × Path :=
  (m.root, if path.drop m.path.length = [] then ['/'] else path.drop m.path.length)

theorem parts_answer (m : Mount ι) : parts (answer path m).2 = parts (path.drop m.path.length) := by
  unfold answer
  split_ifs with h
  · rw [h]
    rfl
  · rfl

/-- **One table.** -/
theorem bestMount_whole_iff (hms : ∀ m ∈ mounts, CleanPath m.path) (hroot : ∃ m ∈ mounts, m.path = ['/'])
    (hp : CleanPath path) : Whole mounts path ((bestMount mounts path).map (answer path)) ↔ Unsplit mounts path := by
  obtain ⟨hbest, hnone⟩ := bestMount_spec mounts path
  cases hb : bestMount mounts path with
  | none =>
    -- the root is there
    obtain ⟨m, hm, hslash⟩ := hroot
    refine absurd ?_ (hnone hb m hm)
    rw [hslash, hp.eq]
    exact ⟨_, rfl⟩
  | some b =>
    obtain ⟨hmem, ⟨rest, hrest⟩, hlongest⟩ := hbest b hb
    have hdrop : path.drop b.path.length = rest := by rw [← hrest, drop_left]
    constructor
    · rintro ⟨m, -, -, -, remaining, hr, hparts⟩
      rw [map_some, some.injEq] at hr
      have hrem : parts rest = (parts path).drop (parts m.path).length := by
        have hsnd : (answer path b).2 = remaining := congrArg Prod.snd hr
        rw [← hparts, ← hsnd, parts_answer, hdrop]
      rw [← hrest] at hrem
      have hwhole := isPrefix_of_remainder hrem
      rw [hrest] at hwhole
      intro m' hm' htext hsplit
      refine ⟨b, hmem, hwhole, lt_of_le_of_ne (hlongest m' hm' htext) fun hlen => hsplit ?_⟩
      have heq : m'.path = b.path := by
        rw [prefix_iff_eq_take.1 htext, hlen, ← hrest, take_left]
      rw [heq]
      exact hwhole
    · intro hunsplit
      have hwhole : parts b.path <+: parts path := by
        by_contra hsplit
        obtain ⟨m', hm', hparts, hlt⟩ := hunsplit b hmem ⟨rest, hrest⟩ hsplit
        have := hlongest m' hm' (isPrefix_of_parts (hms m' hm') hp hparts)
        omega
      refine ⟨b, hmem, hwhole, fun m' hm' hparts => ?_, (answer path b).2, rfl, ?_⟩
      · have htext := isPrefix_of_parts (hms m' hm') hp hparts
        exact length_parts_le_of_length_le htext ⟨rest, hrest⟩ (hlongest m' hm' htext)
      · rw [← hrest] at hwhole
        rw [parts_answer, hdrop, ← hrest, parts_append_of_isPrefix hwhole, drop_left]

theorem MountNamespace.resolveMount_eq : resolveMount mounts path = (bestMount mounts path).map (answer path) := by
  have hlonger : longer path = longerMount (ι := ι) path := by
    funext best m
    exact longer_eq path best m
  unfold resolveMount bestMount
  rw [hlonger]
  rfl

theorem Vfs.resolveMount_namespace {v : Vfs ι} (hns : v.mountNs = some mounts)
    (h : (MountNamespace.resolveMount mounts path).isSome = true) :
    v.resolveMount path = MountNamespace.resolveMount mounts path := by
  rw [MountNamespace.resolveMount_eq, isSome_map] at h
  obtain ⟨b, hb⟩ := isSome_iff_exists.1 h
  rw [MountNamespace.resolveMount_eq, Vfs.resolveMount, Vfs.bestMatch, hns, bind_some, hb]
  rfl

theorem Vfs.resolveMount_global {v : Vfs ι} (h : ∀ ns ∈ v.mountNs, MountNamespace.resolveMount ns path = none) :
    v.resolveMount path = (bestMount v.mounts path).map (answer path) := by
  have hnone : (v.mountNs.bind fun mounts => bestMount mounts path) = none := by
    cases hns : v.mountNs with
    | none => rfl
    | some ns =>
      have := h ns hns
      rw [MountNamespace.resolveMount_eq, map_eq_none_iff] at this
      exact this
  rw [Vfs.resolveMount, Vfs.bestMatch, hnone]
  rfl

/-- **Whole components.** For clean mount points with the root among them and a clean path: a namespace, and the global table
where the namespace has no answer, take the right mount point and return the right components exactly if `Unsplit`. -/
theorem resolveMount_whole_iff (mounts : List (Mount ι)) (hms : ∀ m ∈ mounts, CleanPath m.path)
    (hroot : ∃ m ∈ mounts, m.path = ['/']) (path : Path) (hp : CleanPath path) :
    (Whole mounts path (MountNamespace.resolveMount mounts path) ↔ Unsplit mounts path) ∧
    (∀ v : Vfs ι, v.mountNs = some mounts → (Whole mounts path (v.resolveMount path) ↔ Unsplit mounts path)) ∧
    ∀ v : Vfs ι, v.mounts = mounts → (∀ ns ∈ v.mountNs, MountNamespace.resolveMount ns path = none) →
      (Whole mounts path (v.resolveMount path) ↔ Unsplit mounts path) := by
  have hone := bestMount_whole_iff hms hroot hp
  refine ⟨?_, fun v hns => ?_, fun v hv hns => ?_⟩
  · rw [MountNamespace.resolveMount_eq]
    exact hone
  · have hsome : (MountNamespace.resolveMount mounts path).isSome = true := by
      rw [MountNamespace.resolveMount_eq, isSome_map, ← ne_none_iff_isSome]
      intro hnone
      obtain ⟨m, hm, hslash⟩ := hroot
      refine (bestMount_spec mounts path).2 hnone m hm ?_
      rw [hslash, hp.eq]
      exact ⟨_, rfl⟩
    rw [Vfs.resolveMount_namespace hns hsome, MountNamespace.resolveMount_eq]
    exact hone
  · rw [Vfs.resolveMount_global hns, hv]
    exact hone

def twoMounts : List (Mount ℕ) := [⟨['/'], some 0⟩, ⟨['/', 'm', 'n', 't'], some 1⟩]

theorem cleanPath_name {c : Name} (h : Clean c) : CleanPath ('/' :: c) := by
  have hrender : render [c] = '/' :: c := by
    unfold render joinComponents
    rw [intercalate_singleton]
  rw [← hrender]
  refine (cleanPath_render fun d hd => ?_).1
  rw [mem_singleton.1 hd]
  exact h

theorem clean_twoMounts : ∀ m ∈ twoMounts, CleanPath m.path := by
  intro m hm
  rcases mem_cons.1 hm with rfl | hm
  · exact ⟨rfl, nofun⟩
  · rw [mem_singleton.1 hm]
    exact cleanPath_name ⟨by decide, by decide, by decide, by decide⟩

theorem resolveMount_whole_mnt :
    Whole twoMounts ['/', 'm', 'n', 't'] (MountNamespace.resolveMount twoMounts ['/', 'm', 'n', 't']) := by
  refine (resolveMount_whole_iff twoMounts clean_twoMounts ⟨_, mem_cons_self, rfl⟩ ['/', 'm', 'n', 't']
    (cleanPath_name ⟨by decide, by decide, by decide, by decide⟩)).1.2 ?_
  unfold Unsplit
  decide

/-- **A sibling of a mount point.** `/mnt2` begins with `/mnt` as a text: both tables look for `2` in the file system there. -/
theorem sibling_of_mount_point :
    MountNamespace.resolveMount twoMounts ['/', 'm', 'n', 't', '2'] = some (some 1, ['2']) ∧
    Vfs.resolveMount ⟨⟨fun _ => ⟨.directory, 0, 0, 0⟩, fun _ _ => none, fun _ => none⟩, none, twoMounts, fun _ => none⟩
      ['/', 'm', 'n', 't', '2'] = some (some 1, ['2']) ∧
    ¬Whole twoMounts ['/', 'm', 'n', 't', '2'] (some (some 1, ['2'])) := by
  refine ⟨by decide, by decide, ?_⟩
  rintro ⟨m, hm, hparts, -, remaining, hr, -⟩
  rcases mem_cons.1 hm with rfl | hm
  · cases hr
  · rw [mem_singleton.1 hm] at hparts
    exact absurd hparts (by decide)

end Kontsnor.Fs
