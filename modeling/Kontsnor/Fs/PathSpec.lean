/-
Paths by their components.

`parts` gives the components of a path and `render` the path of components. A component is `Clean` if it is a name, not
empty and neither `.` nor `..`.
-/
import Kontsnor.Fs.Path

namespace Kontsnor.Fs

open List

/-! ## Components -/

structure Clean (c : Name) : Prop where
  ne_nil : c ≠ []
  slash : '/' ∉ c
  ne_dot : c ≠ ['.']
  ne_dots : c ≠ ['.', '.']

def render (components : List Name) : Path := '/' :: joinComponents components

variable {a b path : Path} {c : Name} {cs acc : List Name}

theorem parts_append_slash (a b : Path) : parts (a ++ '/' :: b) = parts a ++ parts b := by
  rw [parts, splitOn, splitOnP_append_cons a b (by simp), filter_append]
  rfl

@[simp] theorem parts_nil : parts [] = [] := by simp [parts]

@[simp] theorem parts_slash (b : Path) : parts ('/' :: b) = parts b := by
  simpa using parts_append_slash [] b

theorem parts_of_name (hne : c ≠ []) (hc : '/' ∉ c) : parts c = [c] := by
  have h : c.splitOn '/' = [c] := by
    refine splitOnP_eq_singleton fun x hx => ?_
    simp only [beq_eq_false_iff_ne, ne_eq]
    rintro rfl
    exact hc hx
  simp [parts, h, hne]

theorem slash_not_mem_of_mem_splitOn (h : c ∈ path.splitOn '/') : '/' ∉ c := by
  rw [splitOn] at h
  induction path generalizing c with
  | nil =>
    have hc : c = [] := by simpa using h
    simp [hc]
  | cons x path ih =>
    rw [splitOnP_cons_eq_if_modifyHead] at h
    split_ifs at h with hx
    · rcases mem_cons.1 h with rfl | h
      · simp
      · exact ih h
    · cases hs : path.splitOnP (· == '/') with
      | nil => exact absurd hs (splitOnP_ne_nil _ _)
      | cons l ls =>
        rw [hs, modifyHead_cons] at h
        rcases mem_cons.1 h with rfl | h
        · have hl : '/' ∉ l := ih (by rw [hs]; exact mem_cons_self)
          have hne : x ≠ '/' := by simpa using hx
          simp [hl, hne.symm]
        · exact ih (by rw [hs]; exact mem_cons_of_mem l h)

theorem mem_parts (h : c ∈ parts path) : c ≠ [] ∧ '/' ∉ c := by
  rw [parts, mem_filter] at h
  exact ⟨by simpa using h.2, slash_not_mem_of_mem_splitOn h.1⟩

theorem exists_last_part (a : Path) : ∃ a' u, a = a' ++ u ∧ '/' ∉ u ∧ ∀ b, parts (a' ++ b) = parts a' ++ parts b := by
  induction a using reverseRecOn with
  | nil => exact ⟨[], [], rfl, by simp, fun b => by simp⟩
  | append_singleton a x ih =>
    by_cases hx : x = '/'
    · subst hx
      refine ⟨a ++ ['/'], [], by simp, by simp, fun b => ?_⟩
      have hslash := parts_append_slash a []
      rw [append_assoc, singleton_append, parts_append_slash, hslash, parts_nil, append_nil]
    · obtain ⟨a', u, rfl, hu, h⟩ := ih
      exact ⟨a', u ++ [x], by simp, by simp [hu, Ne.symm hx], h⟩

theorem exists_first_part (b : Path) : ∃ w b', b = w ++ b' ∧ '/' ∉ w ∧ ∀ a, parts (a ++ b') = parts a ++ parts b' := by
  induction b with
  | nil => exact ⟨[], [], rfl, by simp, fun a => by simp⟩
  | cons x b ih =>
    by_cases hx : x = '/'
    · subst hx
      exact ⟨[], '/' :: b, rfl, by simp, fun a => by rw [parts_append_slash, parts_slash]⟩
    · obtain ⟨w, b', rfl, hw, h⟩ := ih
      exact ⟨x :: w, b', rfl, by simp [hw, Ne.symm hx], h⟩

/-- a path that is cut in two: at a slash, or within a component -/
theorem parts_append (a b : Path) : parts (a ++ b) = parts a ++ parts b ∨
    ∃ x u w y, parts a = x ++ [u] ∧ parts b = w :: y ∧ parts (a ++ b) = x ++ (u ++ w) :: y ∧ w ≠ [] := by
  obtain ⟨a', u, rfl, hu, ha⟩ := exists_last_part a
  obtain ⟨w, b', rfl, hw, hb⟩ := exists_first_part b
  have hab : parts (a' ++ u ++ (w ++ b')) = parts a' ++ (parts (u ++ w) ++ parts b') := by
    rw [append_assoc, ha, ← append_assoc, hb]
  rw [hab, ha, hb]
  by_cases hu0 : u = []
  · left
    simp [hu0]
  by_cases hw0 : w = []
  · left
    simp [hw0]
  · right
    have huw : '/' ∉ u ++ w := by simp [hu, hw]
    refine ⟨parts a', u, w, parts b', ?_, ?_, ?_, hw0⟩
    · rw [parts_of_name hu0 hu]
    · rw [parts_of_name hw0 hw, singleton_append]
    · rw [parts_of_name (by simp [hu0]) huw, singleton_append]

theorem parts_append_of_isPrefix (h : parts a <+: parts (a ++ b)) : parts (a ++ b) = parts a ++ parts b := by
  rcases parts_append a b with heq | ⟨x, u, w, y, ha, hb, hab, hw⟩
  · exact heq
  · rw [ha, hab, prefix_append_right_inj] at h
    have := (cons_prefix_cons.1 h).1
    simp [hw] at this

theorem parts_isPrefix_of_comparable (h : parts (a ++ b) <+: parts a) : parts a <+: parts (a ++ b) := by
  rcases parts_append a b with heq | ⟨x, u, w, y, ha, hb, hab, hw⟩
  · rw [heq]
    exact prefix_append _ _
  · rw [ha, hab, prefix_append_right_inj] at h
    have := (cons_prefix_cons.1 h).1
    simp [hw] at this

theorem length_parts_le (a b : Path) : (parts b).length ≤ (parts (a ++ b)).length := by
  rcases parts_append a b with heq | ⟨x, u, w, y, ha, hb, hab, hw⟩
  · rw [heq, length_append]
    omega
  · rw [hb, hab, length_append, length_cons, length_cons]
    omega

theorem parts_render (h : ∀ c ∈ cs, c ≠ [] ∧ '/' ∉ c) : parts (render cs) = cs := by
  rw [render, parts_slash]
  cases cs with
  | nil => simp [joinComponents]
  | cons c cs =>
    rw [parts, joinComponents, splitOn_intercalate '/' (fun l hl => (h l hl).2) (by simp)]
    refine filter_eq_self.2 fun l hl => ?_
    simpa using (h l hl).1

theorem render_append (h : cs ≠ []) {cs' : List Name} (h' : cs' ≠ []) :
    render (cs ++ cs') = render cs ++ '/' :: joinComponents cs' := by
  obtain ⟨d, ds, rfl⟩ := exists_cons_of_ne_nil h'
  have hjoin : ∀ cs : List Name, cs ≠ [] → joinComponents (cs ++ d :: ds) =
      joinComponents cs ++ '/' :: joinComponents (d :: ds) := by
    intro cs hcs
    induction cs with
    | nil => exact absurd rfl hcs
    | cons c cs ih =>
      cases cs with
      | nil => simp [joinComponents, intercalate_cons_cons]
      | cons e es =>
        have hih := ih (by simp)
        simp only [joinComponents, cons_append, intercalate_cons_cons] at hih ⊢
        rw [hih]
        simp
  rw [render, render, hjoin cs h, cons_append]

theorem startsWithSlash_iff : startsWithSlash path = true ↔ ∃ t, path = '/' :: t := by
  cases path with
  | nil => simp [startsWithSlash]
  | cons x t =>
    constructor
    · intro h
      have hx : x = '/' := by simpa [startsWithSlash] using h
      exact ⟨t, by rw [hx]⟩
    · rintro ⟨t', h⟩
      rw [h]
      rfl

theorem endsWithSlash_iff : endsWithSlash path = true ↔ ∃ t, path = t ++ ['/'] := by
  simp [endsWithSlash, getLast?_eq_some_iff]

theorem parts_append_of_endsWithSlash (h : endsWithSlash a = true) (b : Path) : parts (a ++ b) = parts a ++ parts b := by
  obtain ⟨t, rfl⟩ := endsWithSlash_iff.1 h
  have hslash := parts_append_slash t []
  rw [append_assoc, singleton_append, parts_append_slash, hslash, parts_nil, append_nil]

theorem parts_join (base : Path) {name : Path} (h : startsWithSlash name = false) :
    parts (join base name) = parts base ++ parts name := by
  rw [join, if_neg (by simp [h])]
  split_ifs with hb
  · exact parts_append_of_endsWithSlash hb name
  · exact parts_append_slash base name

theorem startsWithSlash_join {base : Path} (h : base = [] ∨ startsWithSlash base = true) (name : Path) :
    startsWithSlash (join base name) = true := by
  unfold join
  split_ifs with hname hbase
  · exact hname
  · rcases h with rfl | h
    · cases hbase
    · obtain ⟨t, rfl⟩ := startsWithSlash_iff.1 h
      rfl
  · rcases h with rfl | h
    · rfl
    · obtain ⟨t, rfl⟩ := startsWithSlash_iff.1 h
      rfl

/-! ## Normalizing -/

theorem foldl_pushComponent_filter {n : ℕ} :
    cs.foldl (pushComponent n) acc = (cs.filter fun c => c != []).foldl (pushComponent n) acc := by
  induction cs generalizing acc with
  | nil => rfl
  | cons c cs ih =>
    by_cases hc : c = []
    · rw [foldl_cons, ih, filter_cons_of_neg (by simp [hc]), pushComponent, if_pos (.inl hc)]
    · rw [foldl_cons, ih, filter_cons_of_pos (by simp [hc]), foldl_cons]

theorem foldl_pushComponent_clean (n : ℕ) (acc : List Name) (h : ∀ c ∈ cs, Clean c) :
    cs.foldl (pushComponent n) acc = acc ++ cs := by
  induction cs generalizing acc with
  | nil => simp
  | cons c cs ih =>
    have hc := h c mem_cons_self
    rw [foldl_cons, ih _ fun c' hc' => h c' (mem_cons_of_mem c hc'), pushComponent,
      if_neg (by simp [hc.ne_nil, hc.ne_dot]), if_neg hc.ne_dots, append_assoc, singleton_append]

theorem pushComponent_clean {n : ℕ} (hacc : ∀ c ∈ acc, Clean c) (hc : '/' ∉ c) :
    ∀ d ∈ pushComponent n acc c, Clean d := by
  unfold pushComponent
  split_ifs with h1 h2 h3
  · exact hacc
  · exact fun d hd => hacc d (dropLast_subset acc hd)
  · exact hacc
  · push Not at h1
    intro d hd
    rcases mem_append.1 hd with hd | hd
    · exact hacc d hd
    · rw [mem_singleton] at hd
      subst hd
      exact ⟨h1.1, hc, h1.2, h2⟩

theorem foldl_pushComponent_all_clean {n : ℕ} (hacc : ∀ c ∈ acc, Clean c) (h : ∀ c ∈ cs, '/' ∉ c) :
    ∀ d ∈ cs.foldl (pushComponent n) acc, Clean d :=
  foldlRecOn (motive := fun acc => ∀ d ∈ acc, Clean d) cs (pushComponent n) hacc
    fun _ hacc c hc => pushComponent_clean hacc (h c hc)

theorem isPrefix_foldl_pushComponent {jail : List Name} (h : jail <+: acc) :
    jail <+: cs.foldl (pushComponent jail.length) acc := by
  refine foldlRecOn (motive := fun acc => jail <+: acc) cs _ h fun acc h c _ => ?_
  unfold pushComponent
  split_ifs with h1 h2 h3
  · exact h
  · rw [dropLast_eq_take]
    exact prefix_take_iff.2 ⟨h, by omega⟩
  · exact h
  · exact h.trans (prefix_append _ _)

/-- the components that an absolute path comes down to -/
def resolved (path : Path) : List Name := (parts path).foldl (pushComponent 0) []

theorem resolved_clean : ∀ c ∈ resolved path, Clean c :=
  foldl_pushComponent_all_clean (by simp) fun _ hc => (mem_parts hc).2

theorem render_of_isNormalized {body : Path} (h : isNormalized ('/' :: body) = true) :
    '/' :: body = render (parts body) ∧ ∀ c ∈ parts body, Clean c := by
  by_cases hb : body = []
  · subst hb
    simp [render, joinComponents]
  have hall : ∀ c ∈ body.splitOn '/', Clean c := by
    intro c hc
    simp only [isNormalized, reduceCtorEq, if_false, cons.injEq, true_and, hb] at h
    simp only [startsWithSlash, head?_cons, beq_self_eq_true, if_true, tail_cons, Bool.and_eq_true, all_eq_true] at h
    have hn := h.2 c hc
    simp only [bne_iff_ne, ne_eq] at hn
    exact ⟨hn.1.1, slash_not_mem_of_mem_splitOn hc, hn.1.2, hn.2⟩
  have hparts : parts body = body.splitOn '/' :=
    filter_eq_self.2 fun c hc => by simpa using (hall c hc).ne_nil
  rw [hparts, render, joinComponents, intercalate_splitOn]
  exact ⟨rfl, hall⟩

theorem normalize_eq (h : startsWithSlash path = true) : normalize path = render (resolved path) := by
  obtain ⟨body, rfl⟩ := startsWithSlash_iff.1 h
  rw [normalize]
  by_cases hn : isNormalized ('/' :: body) = true
  · obtain ⟨heq, hclean⟩ := render_of_isNormalized hn
    rw [if_pos hn, resolved, parts_slash, foldl_pushComponent_clean 0 [] hclean, nil_append, ← heq]
  · rw [if_neg hn]
    rw [h, if_pos rfl, if_neg (by simp), resolved, parts, ← foldl_pushComponent_filter]
    rfl

/-! ## Jails -/

/-- an absolute path without `.` and `..` -/
structure CleanPath (path : Path) : Prop where
  eq : path = render (parts path)
  clean : ∀ c ∈ parts path, Clean c

theorem cleanPath_render (h : ∀ c ∈ cs, Clean c) : CleanPath (render cs) ∧ parts (render cs) = cs := by
  have hparts : parts (render cs) = cs := parts_render fun c hc => ⟨(h c hc).ne_nil, (h c hc).slash⟩
  exact ⟨⟨by rw [hparts], by rw [hparts]; exact h⟩, hparts⟩

theorem CleanPath.startsWithSlash (h : CleanPath path) : startsWithSlash path = true := by
  rw [h.eq]
  rfl

variable {root : Path}

theorem normalizeJailed_spec (hroot : CleanPath root) (h : parts root <+: parts path) :
    CleanPath (normalizeJailed path root) ∧ parts root <+: parts (normalizeJailed path root) ∧
      ((∀ c ∈ parts path, Clean c) → normalizeJailed path root = render (parts path)) := by
  have hfold : (path.splitOn '/').foldl (pushComponent (parts root).length) [] =
      (parts path).foldl (pushComponent (parts root).length) [] := foldl_pushComponent_filter
  obtain ⟨rest, hrest⟩ := h
  have hjail : parts root <+: (parts path).foldl (pushComponent (parts root).length) [] := by
    rw [← hrest, foldl_append, foldl_pushComponent_clean _ [] hroot.clean]
    exact isPrefix_foldl_pushComponent (by simp)
  have heq : normalizeJailed path root = render ((parts path).foldl (pushComponent (parts root).length) []) := by
    rw [normalizeJailed, hfold]
    rw [if_neg (Nat.not_lt.2 hjail.length_le)]
    rfl
  have hclean : ∀ c ∈ (parts path).foldl (pushComponent (parts root).length) [], Clean c :=
    foldl_pushComponent_all_clean (by simp) fun _ hc => (mem_parts hc).2
  obtain ⟨h1, h2⟩ := cleanPath_render hclean
  rw [heq]
  refine ⟨h1, by rw [h2]; exact hjail, fun hc => ?_⟩
  rw [foldl_pushComponent_clean _ [] hc, nil_append]

theorem parts_of_isPrefixed (h : isPrefixed root path = true) : parts root <+: parts path := by
  rw [isPrefixed, Bool.or_eq_true, beq_iff_eq, Bool.and_eq_true, isPrefixOf_iff_prefix, Bool.or_eq_true] at h
  rcases h with rfl | ⟨⟨rest, rfl⟩, h⟩
  · exact prefix_rfl
  · rw [drop_left] at h
    rcases h with h | h
    · rw [parts_append_of_endsWithSlash h]
      exact prefix_append _ _
    · obtain ⟨t, rfl⟩ := startsWithSlash_iff.1 h
      rw [parts_append_slash]
      exact prefix_append _ _

theorem isPrefixed_of_parts (hroot : CleanPath root) (hne : parts root ≠ []) (hp : CleanPath path)
    (h : parts root <+: parts path) : isPrefixed root path = true := by
  obtain ⟨rest, hrest⟩ := h
  by_cases h0 : rest = []
  · have heq : path = root := by rw [hp.eq, hroot.eq, ← hrest, h0, append_nil]
    simp [isPrefixed, heq]
  · have heq : path = root ++ '/' :: joinComponents rest := by
      rw [hp.eq, ← hrest, render_append hne h0, ← hroot.eq]
    simp [isPrefixed, heq, startsWithSlash]

/-- **The jail is where paths begin.** With a jail root and a working directory in it, every path that a user passes is
resolved to a clean path in the jail. -/
theorem resolveRelativePath_jailed (ctx : FsContext) (hroot : CleanPath ctx.root) (hne : parts ctx.root ≠ [])
    (hcwd : parts ctx.root <+: parts ctx.cwd) (path : Path) :
    CleanPath (resolveRelativePath ctx path) ∧ parts ctx.root <+: parts (resolveRelativePath ctx path) := by
  have hroot1 : ctx.root ≠ ['/'] := by
    intro h
    rw [h] at hne
    simp at hne
  have hjail : ∀ {p : Path}, parts ctx.root <+: parts p →
      CleanPath (normalizeJailed p ctx.root) ∧ parts ctx.root <+: parts (normalizeJailed p ctx.root) :=
    fun h => ⟨(normalizeJailed_spec hroot h).1, (normalizeJailed_spec hroot h).2.1⟩
  rw [resolveRelativePath, if_neg hroot1]
  split_ifs with hpre habs hslash
  · exact hjail (parts_of_isPrefixed hpre)
  · exact hjail prefix_rfl
  · obtain ⟨t, rfl⟩ := startsWithSlash_iff.1 habs
    apply hjail
    rw [parts_append_slash]
    exact prefix_append _ _
  · apply hjail
    rw [parts_join ctx.cwd (by simpa using habs)]
    exact hcwd.trans (prefix_append _ _)

theorem resolveRelativePath_of_jailed {ctx : FsContext} (hroot : CleanPath ctx.root) (hne : parts ctx.root ≠ [])
    (hp : CleanPath path) (h : parts ctx.root <+: parts path) : resolveRelativePath ctx path = path := by
  have hroot1 : ctx.root ≠ ['/'] := by
    intro h
    rw [h] at hne
    simp at hne
  rw [resolveRelativePath, if_neg hroot1, if_pos (isPrefixed_of_parts hroot hne hp h),
    (normalizeJailed_spec hroot h).2.2 hp.clean, ← hp.eq]

/-! ## Without a jail -/

theorem CleanPath.not_endsWithSlash (h : CleanPath path) (hne : path ≠ ['/']) : endsWithSlash path = false := by
  by_contra hends
  obtain ⟨t, ht⟩ := endsWithSlash_iff.1 (Bool.not_eq_false _ ▸ hends)
  have heq : '/' :: joinComponents (parts path) = t ++ ['/'] := h.eq.symm.trans ht
  obtain ⟨t', rfl⟩ : ∃ t', t = '/' :: t' := by
    cases t with
    | nil => exact absurd ht hne
    | cons x t' => exact ⟨t', by rw [(cons.inj heq).1]⟩
  have hcs : parts path ≠ [] := fun h0 => by simp [h0, joinComponents] at heq
  -- the component after the last slash would be empty
  have hsplit := splitOn_intercalate '/' (fun c hc => (h.clean c hc).slash) hcs
  rw [show ['/'].intercalate (parts path) = t' ++ '/' :: [] from (cons.inj heq).2, splitOn,
    splitOnP_append_cons t' [] (by simp)] at hsplit
  exact (h.clean [] (by rw [← hsplit]; simp)).ne_nil rfl

/-- without a jail, the shortcuts for a path that is normalized give what the component stack gives -/
theorem resolveRelativePath_unjailed {ctx : FsContext} (hroot : ctx.root = ['/']) (hcwd : CleanPath ctx.cwd) (path : Path) :
    resolveRelativePath ctx path = render (resolved (join ctx.cwd path)) := by
  rw [resolveRelativePath, if_pos hroot]
  have hslow := normalize_eq (startsWithSlash_join (.inr hcwd.startsWithSlash) path)
  by_cases habs : startsWithSlash path = true
  · rw [if_pos habs, join, if_pos habs]
    exact normalize_eq habs
  have hrel := Bool.eq_false_iff.2 habs
  rw [if_neg habs]
  by_cases hn : isNormalized path = true
  rotate_left
  · simp only [hn, hslow, ite_self, if_false, Bool.false_eq_true]
  obtain ⟨x, t, rfl⟩ := exists_cons_of_ne_nil (show path ≠ [] by rintro rfl; cases hn)
  have hx : x ≠ '/' := by simpa [startsWithSlash] using habs
  have hn' : isNormalized ('/' :: x :: t) = true := by
    simpa [isNormalized, startsWithSlash, endsWithSlash, hx] using hn
  obtain ⟨heq, hclean⟩ := render_of_isNormalized hn'
  have hjoin := (cons.inj heq).2
  have hres : resolved (join ctx.cwd (x :: t)) = parts ctx.cwd ++ parts (x :: t) := by
    rw [resolved, parts_join _ hrel, foldl_pushComponent_clean, nil_append]
    exact fun c hc => (mem_append.1 hc).elim (hcwd.clean c) (hclean c)
  rw [hres, if_pos hn, if_pos hn]
  split_ifs with hc he
  · simpa [hc] using heq
  · rw [hcwd.not_endsWithSlash hc] at he
    cases he
  · have h1 : parts ctx.cwd ≠ [] := fun h0 => hc (by rw [hcwd.eq, h0]; rfl)
    have h2 : parts (x :: t) ≠ [] := fun h0 => by simp [h0, joinComponents] at hjoin
    rw [render_append h1 h2, ← hcwd.eq, ← hjoin]

/-- **Textual resolution is canonical.** From a clean working directory in a clean jail root, every path that a user
passes becomes an absolute path of clean components without a slash at the end, with the components of the root first;
without a jail it is the path that the component stack gives. -/
theorem resolveRelativePath_canonical (ctx : FsContext) (hcwd : CleanPath ctx.cwd) (hroot : CleanPath ctx.root)
    (hin : parts ctx.root <+: parts ctx.cwd) (path : Path) :
    CleanPath (resolveRelativePath ctx path) ∧
    (resolveRelativePath ctx path ≠ ['/'] → endsWithSlash (resolveRelativePath ctx path) = false) ∧
    (ctx.root = ['/'] → resolveRelativePath ctx path = render (resolved (join ctx.cwd path))) ∧
    parts ctx.root <+: parts (resolveRelativePath ctx path) := by
  have hboth : CleanPath (resolveRelativePath ctx path) ∧ parts ctx.root <+: parts (resolveRelativePath ctx path) := by
    by_cases h0 : parts ctx.root = []
    · have h1 : ctx.root = ['/'] := by rw [hroot.eq, h0]; rfl
      rw [resolveRelativePath_unjailed h1 hcwd, h0]
      exact ⟨(cleanPath_render resolved_clean).1, nil_prefix⟩
    · exact resolveRelativePath_jailed ctx hroot h0 hin path
  exact ⟨hboth.1, hboth.1.not_endsWithSlash, fun h => resolveRelativePath_unjailed h hcwd path, hboth.2⟩

/-- more dots than the jail is deep -/
theorem resolveRelativePath_canonical_jail :
    resolveRelativePath ⟨"/jail/home".toList, "/jail".toList⟩ "../.././a//b/../c/".toList = "/jail/a/c".toList ∧
      parts "/jail".toList <+: parts
        (resolveRelativePath ⟨"/jail/home".toList, "/jail".toList⟩ "../.././a//b/../c/".toList) := by
  have hclean : ∀ c ∈ ["jail".toList, "home".toList], Clean c := by
    intro c hc
    rcases mem_cons.1 hc with rfl | hc
    · exact ⟨by decide, by decide, by decide, by decide⟩
    · cases mem_singleton.1 hc
      exact ⟨by decide, by decide, by decide, by decide⟩
  have hcwd : CleanPath "/jail/home".toList := (cleanPath_render hclean).1
  have hroot : CleanPath (render ["jail".toList]) :=
    (cleanPath_render fun c hc => hclean c (mem_singleton.1 hc ▸ mem_cons_self)).1
  exact ⟨by decide +kernel, (resolveRelativePath_canonical ⟨"/jail/home".toList, "/jail".toList⟩ hcwd hroot
    (by decide +kernel) _).2.2.2⟩

end Kontsnor.Fs
