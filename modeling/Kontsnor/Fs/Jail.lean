/-
Path lookup in a jail (`chroot`).

The path that a user passes is resolved to one in the jail, but `lookup_follow` makes new paths on its way: at a symbolic
link it normalizes the target without regard to the jail root, and the mount point that it begins at is the longest one
that the path begins with as a text, which may end within a component.
-/
import Kontsnor.Fs.PathSpec
import Kontsnor.Fs.Vfs

namespace Kontsnor.Fs

open List Option Vfs

variable {ι : Type}

/-! ## Mount points -/

variable {path q : Path} {m : Mount ι} {best : Option (Mount ι)} {mounts : List (Mount ι)}

theorem longerMount_isPrefix (h : ∀ b ∈ best, b.path <+: path) : ∀ b ∈ longerMount path best m, b.path <+: path := by
  rw [longerMount_eq]
  split_ifs with hm
  · cases best with
    | none =>
      rintro b ⟨⟩
      exact hm
    | some b' =>
      dsimp only
      split_ifs
      · exact h
      · rintro b ⟨⟩
        exact hm
  · exact h

theorem bestMount_isPrefix : ∀ b ∈ bestMount mounts path, b.path <+: path := by
  refine foldlRecOn (motive := fun best => ∀ b ∈ best, b.path <+: path) mounts (longerMount path) (fun b hb => ?_) ?_
  · cases hb
  · exact fun best hbest m _ => longerMount_isPrefix hbest

/-- for a path and a longer one: the same mount point, or one that is too long for the first -/
def SameOrLonger (q : Path) (best best' : Option (Mount ι)) : Prop :=
  best' = best ∨ ∃ b, best = some b ∧ q.length < b.path.length

theorem SameOrLonger.step (hq : q <+: path) {best' : Option (Mount ι)} (h : SameOrLonger q best best') (m : Mount ι) :
    SameOrLonger q (longerMount path best m) (longerMount q best' m) := by
  rw [longerMount_eq, longerMount_eq]
  by_cases hmq : m.path <+: q
  · have hmp : m.path <+: path := hmq.trans hq
    rw [if_pos hmp, if_pos hmq]
    rcases h with rfl | ⟨b, rfl, hlt⟩
    · exact .inl rfl
    · have := hmq.length_le
      exact .inr ⟨b, by dsimp only; rw [if_pos (by omega)], hlt⟩
  · rw [if_neg hmq]
    by_cases hmp : m.path <+: path
    · have hlt : q.length < m.path.length := by
        by_contra hle
        exact hmq (prefix_of_prefix_length_le hmp hq (Nat.not_lt.1 hle))
      rw [if_pos hmp]
      right
      cases best with
      | none => exact ⟨m, rfl, hlt⟩
      | some b =>
        dsimp only
        split_ifs with hle
        · exact ⟨b, rfl, by omega⟩
        · exact ⟨m, rfl, hlt⟩
    · rw [if_neg hmp]
      exact h

theorem SameOrLonger.bestMount (mounts : List (Mount ι)) (hq : q <+: path) :
    SameOrLonger q (bestMount mounts path) (bestMount mounts q) := by
  have hfold : ∀ (ms : List (Mount ι)) (best best' : Option (Mount ι)), SameOrLonger q best best' →
      SameOrLonger q (ms.foldl (longerMount path) best) (ms.foldl (longerMount q) best') := by
    intro ms
    induction ms with
    | nil => exact fun best best' h => h
    | cons m ms ih => exact fun best best' h => ih _ _ (h.step hq m)
  exact hfold mounts none none (.inl rfl)

variable {v : Vfs ι} {c : Name}

theorem Vfs.bestMatch_isPrefix (h : v.bestMatch path = some m) : m.path <+: path := by
  rw [bestMatch, or_eq_some_iff] at h
  rcases h with h | ⟨-, h⟩
  · obtain ⟨ms, -, h⟩ := bind_eq_some_iff.1 h
    exact bestMount_isPrefix m h
  · exact bestMount_isPrefix m h

/-- a path that is cut behind its mount point still has that mount point -/
theorem Vfs.bestMatch_of_isPrefix (h : v.bestMatch path = some m) (hq : q <+: path) (hm : m.path <+: q) :
    v.bestMatch q = some m := by
  have hsame : ∀ ms : List (Mount ι), Fs.bestMount ms path = some m → Fs.bestMount ms q = some m := by
    intro ms hms
    rcases SameOrLonger.bestMount ms hq with heq | ⟨b, hb, hlt⟩
    · rw [heq, hms]
    · cases hms.symm.trans hb
      have := hm.length_le
      omega
  have hnone : ∀ ms : List (Mount ι), Fs.bestMount ms path = none → Fs.bestMount ms q = none := by
    intro ms hms
    rcases SameOrLonger.bestMount ms hq with heq | ⟨b, hb, hlt⟩
    · rw [heq, hms]
    · rw [hms] at hb
      cases hb
  rw [bestMatch, or_eq_some_iff] at h ⊢
  rcases h with h | ⟨h0, h⟩
  · left
    obtain ⟨ms, hns, h⟩ := bind_eq_some_iff.1 h
    exact bind_eq_some_iff.2 ⟨ms, hns, hsame ms h⟩
  · refine .inr ⟨?_, hsame _ h⟩
    cases hns : v.mountNs with
    | none => rfl
    | some ms =>
      rw [hns] at h0
      exact hnone ms h0

/-! ## Walking -/

theorem parts_pushPath (path : Path) (hne : c ≠ []) (hc : '/' ∉ c) : parts (pushPath path c) = parts path ++ [c] := by
  rw [pushPath]
  split_ifs with h
  · rw [h, singleton_append, parts_slash, parts_of_name hne hc]
    simp
  · rw [parts_append_slash, parts_of_name hne hc]

variable {creds : Creds} {followLast : Bool} {current : ι} {cs : List Name}

theorem Vfs.parts_of_mem_walk (hcs : ∀ c ∈ cs, c ≠ [] ∧ '/' ∉ c) :
    ∀ q ∈ (v.walk creds followLast current path cs).1, parts q <+: parts path ++ cs := by
  induction cs generalizing current path with
  | nil =>
    intro q hq
    cases hq
  | cons c cs ih =>
    have hpath : parts (pushPath path c) = parts path ++ [c] :=
      parts_pushPath path (hcs c mem_cons_self).1 (hcs c mem_cons_self).2
    have hfirst : parts (pushPath path c) <+: parts path ++ c :: cs := by
      rw [hpath, prefix_append_right_inj]
      exact cons_prefix_cons.2 ⟨rfl, nil_prefix⟩
    have hone : ∀ q ∈ [pushPath path c], parts q <+: parts path ++ c :: cs := by
      intro q hq
      rw [mem_singleton] at hq
      rw [hq]
      exact hfirst
    rw [walk]
    split_ifs with hexec
    · dsimp only
      split
      · exact hone
      · rename_i next hnext
        split_ifs with hlink
        · split
          · exact hone
          · exact hone
        · intro q hq
          rcases mem_cons.1 hq with rfl | hq
          · exact hfirst
          · have hrest := ih (fun c' hc' => hcs c' (mem_cons_of_mem c hc')) q hq
            rwa [hpath, append_assoc, singleton_append] at hrest
    · intro q hq
      cases hq

variable {dir target : Path} {remainder : List Name}

theorem startsWithSlash_pushPath (h : path = [] ∨ startsWithSlash path = true) (c : Name) :
    startsWithSlash (pushPath path c) = true := by
  rw [pushPath]
  rcases h with rfl | hs
  · rfl
  · obtain ⟨t, rfl⟩ := startsWithSlash_iff.1 hs
    split_ifs <;> rfl

/-- a walk that ends at a symbolic link ends there with any other components behind it, the link itself included -/
theorem Vfs.walk_link (h : (v.walk creds followLast current path cs).2 = .link dir target remainder) :
    ∃ pre c, cs = pre ++ c :: remainder ∧ (∃ n, v.tree.target n = some target) ∧
      (path = [] ∨ startsWithSlash path = true → dir = [] ∨ startsWithSlash dir = true) ∧
      ∀ r, (v.walk creds true current path (pre ++ c :: r)).2 = .link dir target r := by
  induction cs generalizing current path with
  | nil => cases h
  | cons c cs ih =>
    rw [walk] at h
    split_ifs at h with hexec
    · dsimp only at h
      split at h
      · cases h
      · rename_i next hnext
        split_ifs at h with hlink
        · split at h
          · rename_i t ht
            cases h
            refine ⟨[], c, rfl, ⟨next, ht⟩, fun hpath => hpath, fun r => ?_⟩
            rw [nil_append, walk, if_pos hexec]
            dsimp only
            rw [hnext]
            dsimp only
            rw [if_pos ⟨hlink.1, .inr rfl⟩, ht]
          · cases h
        · obtain ⟨pre, c', rfl, ht, hdir, hwalk⟩ := ih h
          refine ⟨c :: pre, c', rfl, ht, fun hpath => hdir (.inr (startsWithSlash_pushPath hpath c)), fun r => ?_⟩
          have hne : ¬ ((v.tree.inode next).fileType = .symlink ∧ (pre ++ c' :: r ≠ [] ∨ true = true)) := by
            intro hc
            exact hlink ⟨hc.1, .inl (by simp)⟩
          rw [cons_append, walk, if_pos hexec]
          dsimp only
          rw [hnext]
          dsimp only
          rw [if_neg hne]
          exact hwalk r

theorem Vfs.round_target (h : (v.round creds followLast path).2 = .link dir target remainder) :
    ∃ n, v.tree.target n = some target := by
  rw [round] at h
  split at h
  · obtain ⟨_, _, _, ht, -⟩ := walk_link h
    exact ht
  · cases h

/-! ## Symbolic links -/

theorem Clean.not_startsWithSlash (h : Clean c) : startsWithSlash c = false := by
  rw [Bool.eq_false_iff]
  intro hs
  obtain ⟨t, rfl⟩ := startsWithSlash_iff.1 hs
  exact h.slash mem_cons_self

theorem foldl_join {base : Path} (hbase : startsWithSlash base = true) (h : ∀ c ∈ cs, Clean c) :
    startsWithSlash (cs.foldl join base) = true ∧ parts (cs.foldl join base) = parts base ++ cs := by
  induction cs generalizing base with
  | nil => exact ⟨hbase, by simp⟩
  | cons c cs ih =>
    have hc := h c mem_cons_self
    obtain ⟨h1, h2⟩ := ih (startsWithSlash_join (.inr hbase) c) fun c' hc' => h c' (mem_cons_of_mem c hc')
    refine ⟨h1, ?_⟩
    rw [foldl_cons, h2, parts_join base hc.not_startsWithSlash, parts_of_name hc.ne_nil hc.slash, append_assoc,
      singleton_append]

section

variable (hdir : dir = [] ∨ startsWithSlash dir = true)
include hdir

theorem cleanPath_expandTarget (target : Path) : CleanPath (expandTarget dir target) := by
  have hnorm : ∀ {p : Path}, startsWithSlash p = true → CleanPath (normalize p) := fun h => by
    rw [normalize_eq h]
    exact (cleanPath_render resolved_clean).1
  unfold expandTarget
  split_ifs with habs
  · exact hnorm habs
  · exact hnorm (startsWithSlash_join hdir target)

/-- the path that is walked next: where the link leads, and what was left -/
theorem expand_spec (target : Path) (hcs : ∀ c ∈ cs, Clean c) :
    CleanPath (expand dir target cs) ∧ parts (expand dir target cs) = parts (expandTarget dir target) ++ cs := by
  have ht := cleanPath_expandTarget hdir target
  obtain ⟨h1, h2⟩ := foldl_join ht.startsWithSlash hcs
  have hclean : ∀ c ∈ parts (expandTarget dir target) ++ cs, Clean c := by
    intro c hc
    rcases mem_append.1 hc with hc | hc
    · exact ht.clean c hc
    · exact hcs c hc
  have heq : expand dir target cs = render (parts (expandTarget dir target) ++ cs) := by
    rw [expand, normalize_eq h1, resolved, h2, foldl_pushComponent_clean 0 [] hclean, nil_append]
  rw [heq]
  exact cleanPath_render hclean

end

/-! ## Rounds -/

theorem Vfs.round_spec {node : ι} (hm : v.bestMatch path = some m) (hnode : m.root = some node) (creds : Creds)
    (followLast : Bool) :
    ∃ start, parts start = parts m.path ∧ start <+: path ∧ (parts (path.drop m.path.length) ≠ [] → start = m.path) ∧
      v.round creds followLast path =
        (start :: (v.walk creds followLast node start (parts (path.drop m.path.length))).1,
          (v.walk creds followLast node start (parts (path.drop m.path.length))).2) := by
  obtain ⟨rest, hrest⟩ := bestMatch_isPrefix hm
  have hdrop : path.drop m.path.length = rest := by rw [← hrest, drop_left]
  have hres : v.resolveMount path = some (some node, if rest = [] then ['/'] else rest) := by
    rw [resolveMount, hm, map_some, hnode, hdrop]
  rw [round, hres, hdrop]
  dsimp only
  by_cases h0 : rest = []
  · subst h0
    refine ⟨path, ?_, prefix_rfl, fun h => by simp at h, ?_⟩
    · rw [← hrest, append_nil]
    · simp [mountPath]
  · rw [if_neg h0]
    by_cases h1 : rest = ['/']
    · subst h1
      refine ⟨path, ?_, prefix_rfl, fun h => by simp at h, ?_⟩
      · rw [← hrest, parts_append_slash]
        simp
      · simp [mountPath]
    · have hlen : path.length - rest.length = m.path.length := by
        rw [← hrest, length_append]
        omega
      have hmp : mountPath path rest = m.path := by
        rw [mountPath, if_neg h1, hlen, ← hrest, take_left]
      rw [hmp]
      exact ⟨m.path, rfl, ⟨rest, hrest⟩, fun _ => rfl, rfl⟩

/-- without a mount point nothing is walked -/
theorem Vfs.round_cases (v : Vfs ι) (creds : Creds) (followLast : Bool) (path : Path) :
    v.round creds followLast path = ([], .failed) ∨ ∃ m node, v.bestMatch path = some m ∧ m.root = some node := by
  cases hm : v.bestMatch path with
  | none =>
    simp [round, resolveMount, hm]
  | some m =>
    cases hr : m.root with
    | none =>
      simp [round, resolveMount, hm, hr]
    | some node => exact .inr ⟨m, node, rfl, hr⟩

/-- a clean path that is cut after a component behind its first part `a` -/
theorem CleanPath.cut {a b : Path} {pre rest : List Name} (h : CleanPath (a ++ b)) (hb : parts b = pre ++ c :: rest) :
    ∃ d, CleanPath (a ++ d) ∧ a ++ d <+: a ++ b ∧ parts d = pre ++ [c] ∧ parts (a ++ b) = parts (a ++ d) ++ rest := by
  by_cases h0 : rest = []
  · subst h0
    exact ⟨b, h, prefix_rfl, hb, by simp⟩
  -- what is left are components of the whole path
  have hsuffix : ∃ front, parts (a ++ b) = front ++ rest ∧ front ≠ [] := by
    rcases parts_append a b with heq | ⟨x, u, w, y, ha, hb', hab, hw⟩
    · exact ⟨parts a ++ (pre ++ [c]), by rw [heq, hb]; simp, by simp⟩
    · rw [hb] at hb'
      cases pre with
      | nil =>
        obtain ⟨-, rfl⟩ := cons.inj hb'
        exact ⟨x ++ [u ++ w], by rw [hab]; simp, by simp⟩
      | cons e pre =>
        obtain ⟨-, rfl⟩ := cons.inj hb'
        exact ⟨x ++ (u ++ w) :: (pre ++ [c]), by rw [hab]; simp, by simp⟩
  obtain ⟨front, hfront, hne⟩ := hsuffix
  have hclean : ∀ e ∈ front, Clean e := fun e he => h.clean e (by rw [hfront]; exact mem_append_left _ he)
  have hrest : ∀ e ∈ rest, e ≠ [] ∧ '/' ∉ e := by
    intro e he
    have hc := h.clean e (by rw [hfront]; exact mem_append_right _ he)
    exact ⟨hc.ne_nil, hc.slash⟩
  obtain ⟨hq, hpq⟩ := cleanPath_render hclean
  have heq : a ++ b = render front ++ '/' :: joinComponents rest := by rw [h.eq, hfront, render_append hne h0]
  have htail : parts ('/' :: joinComponents rest) = rest := parts_render hrest
  -- the cut is behind `a`, since `b` has more components than are left
  have ha : a <+: render front := by
    have hpre : a <+: render front ++ '/' :: joinComponents rest := ⟨b, heq⟩
    refine prefix_of_prefix_length_le hpre (prefix_append _ _) ?_
    by_contra hlt
    obtain ⟨z, hz⟩ := prefix_of_prefix_length_le (prefix_append (render front) ('/' :: joinComponents rest)) hpre
      (by omega)
    rw [← hz, append_assoc, append_cancel_left_eq] at heq
    have hle := length_parts_le z b
    rw [heq, htail, hb, length_append, length_cons] at hle
    omega
  obtain ⟨d, hd⟩ := ha
  have hbd : b = d ++ '/' :: joinComponents rest := by
    rw [← hd, append_assoc, append_cancel_left_eq] at heq
    exact heq
  refine ⟨d, by rw [hd]; exact hq, by rw [hd, heq]; exact prefix_append _ _, ?_, by rw [hd, hpq, hfront]⟩
  have hparts := hb
  rw [hbd, parts_append_slash, ← parts_slash (joinComponents rest), htail] at hparts
  have hcons : pre ++ c :: rest = (pre ++ [c]) ++ rest := by simp
  rw [hcons] at hparts
  exact append_cancel_right hparts

/-- a clean path in a jail is the jail root, or continues it after a slash -/
theorem CleanPath.eq_or_append {root : Path} (hroot : CleanPath root) (hne : parts root ≠ []) (hp : CleanPath path)
    (h : parts root <+: parts path) : path = root ∨ ∃ t, path = root ++ '/' :: t := by
  obtain ⟨rest, hrest⟩ := h
  by_cases h0 : rest = []
  · left
    rw [hp.eq, hroot.eq, ← hrest, h0, append_nil]
  · right
    exact ⟨joinComponents rest, by rw [hp.eq, ← hrest, render_append hne h0, ← hroot.eq]⟩

/-! ## Confinement -/

/-- a round is confined to a jail: its path lies there, and each path that it reaches does, or is on the way down to it -/
def Vfs.Round.Confined (root : Path) (r : Vfs.Round) : Prop :=
  parts root <+: parts r.path ∧ ∀ q ∈ r.visited, parts root <+: parts q ∨ parts q <+: parts root

/-- the jail root has its mount point at one of its components, and no symbolic link leads out of the jail -/
structure Vfs.Jailed (v : Vfs ι) (creds : Creds) (root : Path) : Prop where
  mount : ∀ m, v.bestMatch root = some m → m.root ≠ none → parts m.path <+: parts root
  /-- a link on the way down to the jail root -/
  way : ∀ dir target remainder, (v.round creds true root).2 = .link dir target remainder →
    parts root <+: parts (expandTarget dir target) ++ remainder
  /-- a link in the jail -/
  inside : ∀ q, CleanPath q → parts root <+: parts q → ∀ dir target, (v.round creds true q).2 = .link dir target [] →
    parts root <+: parts (expandTarget dir target)

variable {root : Path}

theorem isPrefix_of_ne_nil (hroot : CleanPath root) (hne : parts root ≠ []) (hp : CleanPath path)
    (h : parts root <+: parts path) : root <+: path := by
  rcases hroot.eq_or_append hne hp h with rfl | ⟨t, rfl⟩
  · exact prefix_rfl
  · exact prefix_append _ _

section

variable (hp : CleanPath path) (hlink : (v.round creds followLast path).2 = .link dir target remainder)
include hp hlink

/-- a round that ends at a link: the components up to it, and the path that is walked next -/
theorem Vfs.round_link :
    ∃ m node b pre c, v.bestMatch path = some m ∧ m.root = some node ∧ m.path ++ b = path ∧
      parts b = pre ++ c :: remainder ∧
      (∀ r, (v.walk creds true node m.path (pre ++ c :: r)).2 = .link dir target r) ∧
      (dir = [] ∨ startsWithSlash dir = true) := by
  rcases v.round_cases creds followLast path with h0 | ⟨m, node, hm, hnode⟩
  · rw [h0] at hlink
    cases hlink
  obtain ⟨start, -, hpre, hstart, hround⟩ := round_spec hm hnode creds followLast
  rw [hround] at hlink
  obtain ⟨pre, c, hcs, -, hdir, hwalk⟩ := walk_link hlink
  obtain rfl := hstart (by rw [hcs]; simp)
  obtain ⟨b, hb⟩ := bestMatch_isPrefix hm
  refine ⟨m, node, b, pre, c, hm, hnode, hb, by rwa [← hb, drop_left] at hcs, hwalk, hdir ?_⟩
  obtain ⟨t, ht⟩ := startsWithSlash_iff.1 hp.startsWithSlash
  rw [ht] at hpre
  rcases prefix_cons_iff.1 hpre with h0 | ⟨t', h0, -⟩
  · exact .inl h0
  · exact .inr (by rw [h0]; rfl)

theorem Vfs.expand_of_link :
    CleanPath (expand dir target remainder) ∧
      parts (expand dir target remainder) = parts (expandTarget dir target) ++ remainder := by
  obtain ⟨m, node, b, pre, c, -, -, rfl, hb, -, hdir⟩ := round_link hp hlink
  obtain ⟨d, -, -, -, hparts⟩ := hp.cut hb
  exact expand_spec hdir target fun e he => hp.clean e (by rw [hparts]; exact mem_append_right _ he)

end

theorem Vfs.rounds_of_link (h : (v.round creds followLast path).2 = .link dir target remainder) (n : ℕ) :
    (v.rounds creds followLast (n + 1) path).1 =
      ⟨path, (v.round creds followLast path).1⟩ :: (v.rounds creds followLast n (expand dir target remainder)).1 := by
  rw [rounds.eq_def]
  simp only [h]

theorem Vfs.rounds_cases (v : Vfs ι) (creds : Creds) (followLast : Bool) (n : ℕ) (path : Path) :
    (v.rounds creds followLast n path).1 = [⟨path, (v.round creds followLast path).1⟩] ∨
      ∃ dir target remainder k, n = k + 1 ∧ (v.round creds followLast path).2 = .link dir target remainder := by
  cases h : (v.round creds followLast path).2 with
  | found node =>
    left
    rw [rounds.eq_def]
    simp only [h]
  | failed =>
    left
    rw [rounds.eq_def]
    simp only [h]
  | link dir target remainder =>
    cases n with
    | zero =>
      left
      rw [rounds.eq_def]
      simp only [h]
    | succ k => exact .inr ⟨dir, target, remainder, k, rfl, rfl⟩

section Jailed

variable (hj : v.Jailed creds root) (hroot : CleanPath root) (hne : parts root ≠ []) (hp : CleanPath path)
  (h : parts root <+: parts path)
include hj hroot hne hp h

section

variable (hm : v.bestMatch path = some m) (hnode : m.root ≠ none)
include hm hnode

/-- the mount point of a path in the jail: that of the jail root, or one behind it -/
theorem Vfs.Jailed.mount_cases :
    (m.path <+: root ∧ v.bestMatch root = some m ∧ parts m.path <+: parts root) ∨ ∃ t, m.path = root ++ '/' :: t := by
  have hmp := bestMatch_isPrefix hm
  have hrp := isPrefix_of_ne_nil hroot hne hp h
  rcases Nat.lt_or_ge root.length m.path.length with hlt | hge
  · right
    obtain ⟨s, hs⟩ := prefix_of_prefix_length_le hrp hmp hlt.le
    have hs0 : s ≠ [] := by
      rintro rfl
      rw [append_nil] at hs
      rw [hs] at hlt
      omega
    rcases hroot.eq_or_append hne hp h with rfl | ⟨t, heq⟩
    · exact absurd hmp.length_le (Nat.not_le.2 hlt)
    · obtain ⟨b, hb⟩ := hmp
      obtain ⟨x, s', rfl⟩ := exists_cons_of_ne_nil hs0
      rw [heq, ← hs, append_assoc, append_cancel_left_eq, cons_append] at hb
      obtain ⟨rfl, -⟩ := cons.inj hb
      exact ⟨s', hs.symm⟩
  · left
    have hmr : m.path <+: root := prefix_of_prefix_length_le hmp hrp hge
    have hbest := bestMatch_of_isPrefix hm hrp hmr
    exact ⟨hmr, hbest, hj.mount m hbest hnode⟩

/-- what is walked begins with the jail root -/
theorem Vfs.Jailed.walked : parts root <+: parts m.path ++ parts (path.drop m.path.length) := by
  obtain ⟨b, hb⟩ := bestMatch_isPrefix hm
  rcases hj.mount_cases hroot hne hp h hm hnode with ⟨-, -, hparts⟩ | ⟨t, ht⟩
  · have hbound : parts (m.path ++ b) = parts m.path ++ parts b :=
      parts_append_of_isPrefix (by rw [hb]; exact hparts.trans h)
    rw [← hb, drop_left, ← hbound, hb]
    exact h
  · rw [ht, parts_append_slash, append_assoc]
    exact prefix_append _ _

end

theorem Vfs.Jailed.visited : ∀ q ∈ (v.round creds followLast path).1, parts root <+: parts q ∨ parts q <+: parts root := by
  rcases v.round_cases creds followLast path with h0 | ⟨m, node, hm, hnode⟩
  · rw [h0]
    intro q hq
    cases hq
  obtain ⟨start, hstart, -, -, hround⟩ := round_spec hm hnode creds followLast
  have hwalked := hj.walked hroot hne hp h hm (by simp [hnode])
  rw [hround, ← hstart] at *
  have hq : ∀ q ∈ start :: (v.walk creds followLast node start (parts (path.drop m.path.length))).1,
      parts q <+: parts start ++ parts (path.drop m.path.length) := by
    intro q hq
    rcases mem_cons.1 hq with rfl | hq
    · exact prefix_append _ _
    · exact parts_of_mem_walk (fun _ hc => mem_parts hc) q hq
  intro q hmem
  exact prefix_or_prefix_of_prefix hwalked (hq q hmem)

/-- a link that a round in the jail meets leads back into the jail -/
theorem Vfs.Jailed.link (hlink : (v.round creds followLast path).2 = .link dir target remainder) :
    parts root <+: parts (expand dir target remainder) := by
  rw [(expand_of_link hp hlink).2]
  obtain ⟨m, node, b, pre, c, hm, hnode, hb, hcs, hwalk, -⟩ := round_link hp hlink
  obtain ⟨d, hclean, hdp, hd, hparts⟩ := CleanPath.cut (hb ▸ hp) hcs
  rw [hb] at hdp hparts
  -- the round of a path that begins at the same mount point
  have hsame : ∀ {e : Path} {r : List Name}, v.bestMatch (m.path ++ e) = some m → parts e = pre ++ c :: r →
      (v.round creds true (m.path ++ e)).2 = .link dir target r := by
    intro e r hme he
    obtain ⟨start', -, -, hstart', hround'⟩ := round_spec hme hnode creds true
    rw [drop_left, he] at hstart' hround'
    obtain rfl := hstart' (by simp)
    rw [hround']
    exact hwalk r
  rw [hparts] at h
  by_cases hin : parts root <+: parts (m.path ++ d)
  · -- the link lies in the jail
    have hq := hsame (bestMatch_of_isPrefix hm hdp (prefix_append _ _)) hd
    exact (hj.inside _ hclean hin dir target hq).trans (prefix_append _ _)
  · -- it is met on the way down to the jail root
    have hdown : parts (m.path ++ d) <+: parts root := by
      rcases prefix_or_prefix_of_prefix h (prefix_append _ remainder) with h1 | h1
      · exact absurd h1 hin
      · exact h1
    rcases hj.mount_cases hroot hne hp (hparts ▸ h) hm (by simp [hnode]) with ⟨hmr, hmroot, hmparts⟩ | ⟨t, ht⟩
    · obtain ⟨r, hr⟩ := hdown
      obtain ⟨e, he⟩ := hmr
      have hbound : parts (m.path ++ b) = parts m.path ++ parts b :=
        parts_append_of_isPrefix (by rw [hb, hparts]; exact hmparts.trans h)
      have hboundr : parts (m.path ++ e) = parts m.path ++ parts e :=
        parts_append_of_isPrefix (by rw [he]; exact hmparts)
      have hmd : parts (m.path ++ d) = parts m.path ++ (pre ++ [c]) := by
        rw [hb, hparts, hcs] at hbound
        have hcons : parts m.path ++ (pre ++ c :: remainder) = (parts m.path ++ (pre ++ [c])) ++ remainder := by simp
        rw [hcons] at hbound
        exact append_cancel_right hbound
      have hpe : parts e = pre ++ c :: r := by
        rw [he, ← hr, hmd, append_assoc, append_cancel_left_eq] at hboundr
        rw [← hboundr]
        simp
      have hway := hj.way dir target r (by rw [← he]; exact hsame (he ▸ hmroot) hpe)
      have hrr : r <+: remainder := by
        rw [← hr, prefix_append_right_inj] at h
        exact h
      exact hway.trans ((prefix_append_right_inj _).2 hrr)
    · refine absurd ?_ hin
      rw [ht, append_assoc, cons_append, parts_append_slash]
      exact prefix_append _ _

theorem Vfs.Jailed.rounds (n : ℕ) : ∀ r ∈ (v.rounds creds followLast n path).1, r.Confined root := by
  induction n using Nat.strong_induction_on generalizing path with
  | _ n ih =>
    intro r hmem
    have hfirst : Vfs.Round.Confined root ⟨path, (v.round creds followLast path).1⟩ :=
      ⟨h, hj.visited hroot hne hp h⟩
    rcases v.rounds_cases creds followLast n path with hr | ⟨dir, target, remainder, k, rfl, hlink⟩
    · rw [hr] at hmem
      rw [mem_singleton.1 hmem]
      exact hfirst
    · rw [rounds_of_link hlink] at hmem
      have hin := hj.link hroot hne hp h hlink
      have hexp := (expand_of_link hp hlink).1
      rcases mem_cons.1 hmem with rfl | hmem
      · exact hfirst
      · exact ih k (Nat.lt_succ_self k) hexp hin r hmem

end Jailed

theorem Vfs.mem_rounds_self (v : Vfs ι) (creds : Creds) (followLast : Bool) (n : ℕ) (path : Path) :
    ⟨path, (v.round creds followLast path).1⟩ ∈ (v.rounds creds followLast n path).1 := by
  rcases v.rounds_cases creds followLast n path with hr | ⟨dir, target, remainder, k, rfl, hlink⟩
  · rw [hr]
    exact mem_singleton_self _
  · rw [rounds_of_link hlink]
    exact mem_cons_self

/-- lookups that are all confined show that no link leads out -/
theorem Vfs.jailed_of_confined (hroot : CleanPath root) (hne : parts root ≠ [])
    (h : ∀ path, ∀ r ∈ (v.lookupFollow creds ⟨root, root⟩ path true).1, r.Confined root) : v.Jailed creds root := by
  have hself : ∀ {p : Path}, CleanPath p → parts root <+: parts p → ∀ r ∈ (v.rounds creds true 20 p).1, r.Confined root := by
    intro p hp hin r hr
    apply h p r
    rw [lookupFollow, resolveRelativePath_of_jailed hroot hne hp hin]
    exact hr
  -- the round after the link
  have hnext : ∀ {p dir target : Path} {remainder : List Name}, CleanPath p → parts root <+: parts p →
      (v.round creds true p).2 = .link dir target remainder →
      parts root <+: parts (expand dir target remainder) := by
    intro p dir target remainder hp hin hlink
    refine (hself hp hin ⟨_, (v.round creds true (expand dir target remainder)).1⟩ ?_).1
    rw [rounds_of_link hlink]
    exact mem_cons_of_mem _ (v.mem_rounds_self creds true 19 _)
  refine ⟨fun m hm hnode => ?_, fun dir target remainder hlink => ?_, fun q hq hin dir target hlink => ?_⟩
  · obtain ⟨node, hnode⟩ := ne_none_iff_exists'.1 hnode
    obtain ⟨start, hstart, hpre, -, hround⟩ := round_spec hm hnode creds true
    have hconf := (hself hroot prefix_rfl _ (v.mem_rounds_self creds true 20 root)).2 start
      (by rw [hround]; exact mem_cons_self)
    rw [← hstart]
    rcases hconf with hc | hc
    · obtain ⟨z, hz⟩ := hpre
      rw [← hz] at hc ⊢
      exact parts_isPrefix_of_comparable hc
    · exact hc
  · have hin := hnext hroot prefix_rfl hlink
    rwa [(expand_of_link hroot hlink).2] at hin
  · have hin' := hnext hq hin hlink
    rwa [(expand_of_link hq hlink).2, append_nil] at hin'

/-- **Lookup in a jail.** For every file tree and jail root: every lookup, of any path and from any working directory in
the jail, is confined to the jail in all its rounds, exactly if the mount point of the jail root ends at one of its
components and every symbolic link on the way to it or inside leads into the jail. -/
theorem lookupFollow_confined_iff (v : Vfs ι) (creds : Creds) (root : Path) (hroot : CleanPath root) :
    (∀ cwd, parts root <+: parts cwd → ∀ path followLast,
      ∀ r ∈ (v.lookupFollow creds ⟨cwd, root⟩ path followLast).1, r.Confined root) ↔ v.Jailed creds root := by
  by_cases hne : parts root = []
  · -- the root of the tree is no jail
    have hall : ∀ l : List Name, parts root <+: l := fun l => by rw [hne]; exact nil_prefix
    have hmount : ∀ m, v.bestMatch root = some m → parts m.path <+: parts root := by
      intro m hm
      have hpre := bestMatch_isPrefix hm
      have hslash : root = ['/'] := by rw [hroot.eq, hne]; rfl
      rw [hslash] at hpre
      rcases prefix_cons_iff.1 hpre with h0 | ⟨t, h0, ht⟩
      · simp [h0]
      · simp [h0, prefix_nil.1 ht]
    exact ⟨fun _ => ⟨fun m hm _ => hmount m hm, fun _ _ _ _ => hall _, fun _ _ _ _ _ _ => hall _⟩,
      fun _ _ _ _ _ _ _ => ⟨hall _, fun _ _ => .inl (hall _)⟩⟩
  · constructor
    · intro h
      exact jailed_of_confined hroot hne fun path => h root prefix_rfl path true
    · intro hj cwd hcwd path followLast
      obtain ⟨hp, hin⟩ := resolveRelativePath_jailed ⟨cwd, root⟩ hroot hne hcwd path
      exact hj.rounds hroot hne hp hin 20

/-! ## A link out of the jail -/

/-- `/etc`, `/jail` and a symbolic link `/jail/l` -/
def jailVfs (target : Path) : Vfs ℕ where
  tree :=
    { inode := fun n => ⟨if n = 3 then .symlink else .directory, 0o755, 0, 0⟩
      lookup := fun n name =>
        if n = 0 ∧ name = "etc".toList then some 1
        else if n = 0 ∧ name = "jail".toList then some 2
        else if n = 2 ∧ name = "l".toList then some 3
        else none
      target := fun n => if n = 3 then some target else none }
  mountNs := none
  mounts := [⟨"/".toList, some 0⟩]
  dentryCache := fun _ => none

def jailRoot : Path := "/jail".toList

theorem cleanPath_jailRoot : CleanPath jailRoot := by
  have hjail : Clean "jail".toList := ⟨by decide, by decide, by decide, by decide⟩
  have h : jailRoot = render ["jail".toList] := by decide
  exact (cleanPath_render (fun c hc => mem_singleton.1 hc ▸ hjail)).1

/-- with a link that stays in the jail, all lookups are confined -/
theorem lookupFollow_confined_inner : CleanPath jailRoot ∧ ∀ cwd, parts jailRoot <+: parts cwd → ∀ path followLast,
    ∀ r ∈ ((jailVfs "/jail/d".toList).lookupFollow ⟨1000, 1000⟩ ⟨cwd, jailRoot⟩ path followLast).1,
      r.Confined jailRoot := by
  refine ⟨cleanPath_jailRoot,
    (lookupFollow_confined_iff (jailVfs "/jail/d".toList) ⟨1000, 1000⟩ jailRoot cleanPath_jailRoot).2
      ⟨fun m hm _ => ?_, fun dir target remainder h => ?_, fun q _ _ dir target h => ?_⟩⟩
  · cases hm
    decide
  · have hfound : ((jailVfs "/jail/d".toList).round ⟨1000, 1000⟩ true jailRoot).2 = .found 2 := by rfl
    rw [hfound] at h
    cases h
  · obtain ⟨n, hn⟩ := round_target h
    have htarget : target = "/jail/d".toList := by
      simp only [jailVfs] at hn
      split_ifs at hn
      exact (some.inj hn).symm
    have hin : parts jailRoot <+: parts (normalize "/jail/d".toList) := by decide +kernel
    rw [htarget]
    exact hin

/-- **A link out of the jail.** In the jail `/jail`, the lookup of `/l` walks `/jail/l` and then `/etc`. -/
theorem symlink_leaves_jail :
    ((jailVfs "/etc".toList).lookupFollow ⟨1000, 1000⟩ ⟨jailRoot, jailRoot⟩ "/l".toList true).1 =
      [⟨"/jail/l".toList, ["/".toList, "/jail".toList, "/jail/l".toList]⟩,
        ⟨"/etc".toList, ["/".toList, "/etc".toList]⟩] ∧
      ¬ Vfs.Round.Confined jailRoot ⟨"/etc".toList, ["/".toList, "/etc".toList]⟩ := by
  refine ⟨by decide +kernel, fun h => ?_⟩
  have hout : ¬ parts jailRoot <+: parts "/etc".toList := by decide +kernel
  exact hout h.1

end Kontsnor.Fs
