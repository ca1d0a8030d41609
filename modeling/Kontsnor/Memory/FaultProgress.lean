/-
Does a page fault that is resolved make progress?

The handler goes back to the instruction that faulted in four ways (`Route`): it lets a write through, it finds the page
present, it maps the page on demand, or it grows a stack. It never asks whether the access is one that the region allows, or that
the entry allows now:
- a page that is present counts as resolved whatever the access was, so a write to a read-only page of a read-only region, or a
  jump to a page that cannot be executed, faults for ever;
- demand paging maps the pages of a region without any protection, and maps a page of a private file read-only even for a write;
- the page of a stack cannot be executed.

**Main results.** `handle_progress_iff` and, on pointers of the user, `validateUserPtr_mapped`.
-/
import Kontsnor.Memory.FaultHandler

namespace Kontsnor.Memory

open Bool List Option

/-! ## Progress -/

namespace Trap

def page (t : Trap) : ℕ := t.addr / PAGE_SIZE

/-- the entry lets the access through -/
def permits (t : Trap) (flags : PageFlags) : Bool :=
  flags.user && (!t.write || flags.writable) && (!t.fetch || !flags.noExecute)

/-- the protection allows the access -/
def allowedBy (t : Trap) (prot : ℕ) : Bool :=
  if t.write then protWrite prot else if t.fetch then protExec prot else prot &&& 1 != 0

end Trap

namespace Machine

variable (s : Machine) (t : Trap)

def regionAt : Option MappedRegion := (s.spaces t.root).mmapRegions.find? (·.covers t.addr)

/-- both the entry and the region allow the access -/
def through : Bool :=
  (s.lookup t.root t.page).any (fun l => t.permits l.flags) && (s.regionAt t).any fun r => t.allowedBy r.prot

/-- if the handler returns to the instruction, the access is allowed -/
def Progress : Prop := (s.handle t).1 = .returned → (s.handle t).2.through t = true

end Machine

/-! ## Routes -/

/-- what the handler makes of a fault -/
inductive Route where
  | written (l : Leaf)
  | present (l : Leaf)
  | demanded (r : MappedRegion)
  | grown (rs : List MappedRegion)
  | refused

/-- the page of a private file is mapped read-only first, and copied when it is written -/
def MappedRegion.copied (r : MappedRegion) : Bool :=
  r.inode.any (fun i => !i.isDevFb0) && !r.isShared && protWrite r.prot

namespace Machine

variable (s : Machine)

def frameLeft (core : ℕ) : Bool := (s.allocate core).1.isSome

variable (t : Trap)

/-- a write to a page that is present is let through -/
def letWritten (l : Leaf) : Bool :=
  if l.flags.cow then s.world.phys.refs l.frame ≤ 1 || s.frameLeft t.core
  else l.flags.writable || s.writeAllowed t.toFault

/-- there is a frame for a page of the region, and a table -/
def demandable (r : MappedRegion) : Bool :=
  t.tablesOk && r.inode.elim (s.frameLeft t.core) fun i =>
    i.isDevFb0 || (s.cachedPage i (r.offset + UInt64.ofNat (t.page * PAGE_SIZE - r.start))).isSome ||
      (t.readOk && s.frameLeft t.core)

/-- a stack grows if there is a frame; what demand paging took for nothing has been given back -/
def growRoute : Route :=
  if t.onStack && t.tablesOk && (s.demandPage t.toFault).2.frameLeft t.core then
    (growRegions t.addr (s.spaces t.root).mmapRegions).elim .refused .grown
  else .refused

/-- the region that demand paging looks at -/
def demandRegion : Option MappedRegion :=
  if t.addr < 0x0000800000000000 then s.regionAt t else none

def route : Route :=
  if !canonical t.addr then .refused
  else
    match s.lookup t.root t.page with
    | some l =>
      if t.write && s.letWritten t l then .written l
      else if (s.demandRegion t).isSome then .present l
      else .refused
    | none =>
      match s.demandRegion t with
      | some r => if s.demandable t r then .demanded r else s.growRoute t
      | none => s.growRoute t

/-- the route leads to an entry and a region that allow the access -/
def leadsThrough : Route → Bool
  | .written l => l.flags.user && (s.regionAt t).any fun r => t.allowedBy r.prot
  | .present l => t.permits l.flags && (s.regionAt t).any fun r => t.allowedBy r.prot
  | .demanded r => t.allowedBy r.prot && !(t.write && r.copied)
  | .grown rs => !t.fetch && (rs.find? (·.covers t.addr)).any fun r => t.allowedBy r.prot
  | .refused => true

def progressWhen : Bool := s.leadsThrough t (s.route t)

variable {s s' : Machine} {t : Trap} {l : Leaf} {root : ℕ}

/-! ## Pages that are present -/

theorem lookup_setLeaf {page : ℕ} (h : s.lookup root page = some l) (frame : ℕ) (flags : PageFlags) :
    (s.setLeaf root page frame flags).lookup root page = some ⟨root, page, frame, flags⟩ := by
  unfold lookup setLeaf at *
  generalize s.leaves = ls at h
  induction ls with
  | nil => cases h
  | cons x ls ih =>
    by_cases hx : (x.root == root && x.page == page) = true
    · simp only [map_cons, if_pos hx, find?_cons, beq_self_eq_true, Bool.and_self]
    · rw [not_eq_true] at hx
      simp only [find?_cons, hx] at h
      simpa only [map_cons, hx, false_eq_true, if_false, find?_cons] using ih h

theorem mem_setLeaf {page frame : ℕ} {flags : PageFlags} {x : Leaf} (h : x ∈ (s.setLeaf root page frame flags).leaves) :
    x ∈ s.leaves ∨ x = ⟨root, page, frame, flags⟩ := by
  obtain ⟨l, hl, rfl⟩ := mem_map.1 h
  split_ifs
  · exact .inr rfl
  · exact .inl hl

/-- `s'` differs from `s` by the entry `l'` in place of `l`, which can be written -/
structure Written (s s' : Machine) (t : Trap) (l l' : Leaf) : Prop where
  entries : OnlyEntries s s'
  lookup : s'.lookup t.root t.page = some l'
  mem : ∀ x ∈ s'.leaves, x ∈ s.leaves ∨ x = l'
  user : l'.flags.user = l.flags.user
  writable : l'.flags.writable = true
  noExecute : l'.flags.noExecute = l.flags.noExecute

section

variable (hl : s.lookup t.root t.page = some l)
include hl

/-- a write that is let through ends in an entry that can be written, for those who could use it before -/
theorem pageFault_written (hw : (t.write && s.letWritten t l) = true) :
    ∃ s' l', s.pageFault t.toFault = (.resolved, s') ∧ Written s s' t l l' := by
  rw [and_eq_true] at hw
  obtain ⟨hwrite, hw⟩ := hw
  unfold letWritten at hw
  have hpage : t.addr / PAGE_SIZE = t.page := rfl
  unfold pageFault
  dsimp only
  rw [if_pos hwrite, hpage, hl]
  unfold PageFlags.writeFault
  dsimp only
  by_cases hcow : l.flags.cow = true
  · rw [if_pos hcow] at hw ⊢
    by_cases hrefs : s.world.phys.refs l.frame ≤ 1
    · rw [if_pos hrefs]
      have hset := lookup_setLeaf hl l.frame { l.flags with writable := true, cow := false }
      exact ⟨_, _, rfl, ⟨rfl, rfl⟩, hset, fun x hx => mem_setLeaf hx, rfl, rfl, rfl⟩
    rw [if_neg hrefs]
    have hleft : (s.allocate t.core).1.isSome = true := by
      rw [or_eq_true, decide_eq_true_eq] at hw
      exact hw.resolve_left hrefs
    cases hal : s.allocate t.core with
    | mk o s1 =>
      have hsame := sameMap_of_allocate hal
      rw [hal] at hleft
      cases o with
      | none => cases hleft
      | some frame =>
        have hset := lookup_setLeaf ((hsame.lookup t.root t.page).trans hl) frame { l.flags with writable := true, cow := false }
        refine ⟨_, _, rfl, hsame.onlyEntries.trans ⟨rfl, rfl⟩, hset, fun x hx => ?_, rfl, rfl, rfl⟩
        rw [← hsame.leaves]
        exact mem_setLeaf hx
  · rw [if_neg hcow] at hw ⊢
    by_cases hwritable : l.flags.writable = true
    · rw [if_pos hwritable]
      exact ⟨s, l, rfl, ⟨rfl, rfl⟩, hl, fun x hx => .inl hx, rfl, hwritable, rfl⟩
    · rw [if_neg hwritable]
      have hallowed : s.writeAllowed t.toFault = true := by
        rw [or_eq_true] at hw
        exact hw.resolve_left hwritable
      rw [if_pos hallowed]
      have hset := lookup_setLeaf hl l.frame { l.flags with writable := true }
      exact ⟨_, _, rfl, ⟨rfl, rfl⟩, hset, fun x hx => mem_setLeaf hx, rfl, rfl, rfl⟩

theorem demandPage_there :
    s.demandPage t.toFault = (if (s.demandRegion t).isSome then .resolved else .unmapped, s) := by
  unfold demandPage demandRegion regionAt
  by_cases huser : t.addr < 0x0000800000000000
  · rw [if_pos huser, if_pos huser]
    cases (s.spaces t.root).mmapRegions.find? (·.covers t.addr) with
    | none => rfl
    | some r =>
      have hthere : (s.lookup t.root (t.addr / PAGE_SIZE)).isSome = true := isSome_of_eq_some hl
      dsimp only
      rw [if_pos hthere]
      rfl
  · rw [if_neg huser, if_neg huser]
    rfl

/-- any other fault on a page that is present changes nothing, and is resolved in every region -/
theorem pageFault_present (hw : (t.write && s.letWritten t l) = false) :
    ∃ s', s.pageFault t.toFault = (if (s.demandRegion t).isSome then .resolved else .unmapped, s') ∧ SameMap s s' := by
  have hpage : t.addr / PAGE_SIZE = t.page := rfl
  unfold pageFault
  dsimp only
  by_cases hwrite : t.write = true
  · rw [hwrite, Bool.true_and] at hw
    unfold letWritten at hw
    rw [if_pos hwrite, hpage, hl]
    unfold PageFlags.writeFault
    dsimp only
    by_cases hcow : l.flags.cow = true
    · rw [if_pos hcow, or_eq_false_iff, decide_eq_false_iff_not] at hw
      rw [if_pos hcow, if_neg hw.1]
      have hleft : (s.allocate t.core).1.isSome = false := hw.2
      cases hal : s.allocate t.core with
      | mk o s1 =>
        rw [hal] at hleft
        cases o with
        | some frame => cases hleft
        | none =>
          have hsame := sameMap_of_allocate hal
          refine ⟨s1, ?_, hsame⟩
          have hregion : s1.demandRegion t = s.demandRegion t := by
            unfold demandRegion regionAt
            rw [hsame.spaces]
          rw [← hregion]
          exact demandPage_there ((hsame.lookup t.root t.page).trans hl)
    · rw [if_neg hcow, or_eq_false_iff] at hw
      rw [if_neg hcow, if_neg (eq_false_iff.1 hw.1), if_neg (eq_false_iff.1 hw.2)]
      exact ⟨s, demandPage_there hl, SameMap.refl s⟩
  · rw [if_neg hwrite]
    exact ⟨s, demandPage_there hl, SameMap.refl s⟩

end

/-! ## Pages that are mapped on demand -/

theorem mapUserPage_free {page : ℕ} (h : s.lookup root page = none) (frame : ℕ) (flags : PageFlags) (tablesOk : Bool) :
    s.mapUserPage root page frame flags tablesOk =
      if tablesOk then some { s with leaves := s.leaves ++ [⟨root, page, frame, flags⟩] } else none := by
  unfold mapUserPage
  rw [h]
  cases tablesOk <;> rfl

theorem getOrCreatePage_isSome (s : Machine) (core : ℕ) (inode : MappedInode) (fileOffset : UInt64) (readOk : Bool) :
    (s.getOrCreatePage core inode fileOffset readOk).1.isSome =
      ((s.cachedPage inode fileOffset).isSome || (readOk && s.frameLeft core)) := by
  unfold getOrCreatePage frameLeft
  cases hc : s.cachedPage inode fileOffset with
  | some c => rfl
  | none =>
    cases hal : s.allocate core with
    | mk o s1 =>
      cases o with
      | none => exact (Bool.and_false _).symm
      | some frame => cases readOk <;> rfl

/-- when there is a frame for a page of a region; the page is copied on a write if it is that of a private file -/
theorem demandFrame_spec (s : Machine) (t : Trap) (r : MappedRegion) :
    (∃ frame s1, s.demandFrame t.toFault r (UInt64.ofNat (t.page * PAGE_SIZE - r.start)) = (.ok (frame, r.copied), s1) ∧
      t.tablesOk = s.demandable t r) ∨
    ∃ e s1, s.demandFrame t.toFault r (UInt64.ofNat (t.page * PAGE_SIZE - r.start)) = (.error e, s1) ∧
      s.demandable t r = false := by
  unfold demandFrame demandable MappedRegion.copied
  cases hinode : r.inode with
  | some inode =>
    dsimp only [Option.elim, Option.any]
    by_cases hfb : inode.isDevFb0 = true
    · rw [if_pos hfb, hfb]
      left
      exact ⟨_, s, rfl, (Bool.and_true _).symm⟩
    · rw [if_neg hfb, eq_false_iff.2 hfb]
      have hsome := getOrCreatePage_isSome s t.core inode
        (r.offset + UInt64.ofNat (t.page * PAGE_SIZE - r.start)) t.readOk
      cases hget : s.getOrCreatePage t.core inode (r.offset + UInt64.ofNat (t.page * PAGE_SIZE - r.start)) t.readOk with
      | mk o s1 =>
        rw [hget] at hsome
        cases o with
        | some frame =>
          left
          refine ⟨frame, s1, rfl, ?_⟩
          rw [Bool.false_or, ← hsome]
          exact (Bool.and_true _).symm
        | none =>
          right
          refine ⟨_, s1, rfl, ?_⟩
          rw [Bool.false_or, ← hsome]
          exact and_false _
  | none =>
    unfold frameLeft
    cases hal : s.allocate t.core with
    | mk o s1 =>
      cases o with
      | some frame =>
        left
        exact ⟨frame, s1, rfl, (Bool.and_true _).symm⟩
      | none =>
        right
        exact ⟨_, s1, rfl, and_false _⟩

/-- `s'` differs from `s` by a new entry for the page -/
structure Added (s s' : Machine) (t : Trap) (frame : ℕ) (flags : PageFlags) : Prop where
  live : s'.live = s.live
  leaves : s'.leaves = s.leaves ++ [⟨t.root, t.page, frame, flags⟩]

theorem Added.lookup {frame : ℕ} {flags : PageFlags} (h : Added s s' t frame flags)
    (hnone : s.lookup t.root t.page = none) : s'.lookup t.root t.page = some ⟨t.root, t.page, frame, flags⟩ := by
  have happend := lookup_append s ⟨t.root, t.page, frame, flags⟩ t.root t.page
  rw [hnone, none_or, if_pos ⟨rfl, rfl⟩] at happend
  rw [Machine.lookup, h.leaves]
  exact happend

/-- a page of a region that can be had is mapped with the flags of the region; otherwise no entry changes -/
theorem demandPage_absent {r : MappedRegion} (hnone : s.lookup t.root t.page = none) (hr : s.demandRegion t = some r) :
    (s.demandable t r = true ∧ ∃ s' frame, s.demandPage t.toFault = (.resolved, s') ∧
      Added s s' t frame (demandFlags r.prot r.copied)) ∨
    (s.demandable t r = false ∧ (s.demandPage t.toFault).1 ≠ .resolved ∧ SameMap s (s.demandPage t.toFault).2) := by
  unfold demandRegion regionAt at hr
  split_ifs at hr with huser
  have hthere : ¬ (s.lookup t.root (t.addr / PAGE_SIZE)).isSome = true := by
    change ¬ (s.lookup t.root t.page).isSome = true
    rw [hnone]
    exact false_ne_true
  unfold demandPage
  rw [if_pos huser, hr]
  dsimp only
  rw [if_neg hthere]
  have hsame := sameMap_demandFrame s t.toFault r (UInt64.ofNat (t.page * PAGE_SIZE - r.start))
  rcases demandFrame_spec s t r with ⟨frame, s1, hframe, hok⟩ | ⟨e, s1, hframe, hno⟩
  · rw [hframe] at hsame
    unfold Trap.page at hframe
    rw [hframe]
    dsimp only
    have hcount := hsame.trans (sameMap_counted s1 (r.inode.isSome && !s1.isVram frame) frame)
    generalize (if (r.inode.isSome && !s1.isVram frame) = true then s1.incrementRef frame else s1) = s2 at hcount ⊢
    have hmap := mapUserPage_free ((hcount.lookup t.root t.page).trans hnone) frame (demandFlags r.prot r.copied) t.tablesOk
    unfold Trap.page at hmap
    rw [hmap]
    cases htables : t.tablesOk with
    | true =>
      left
      refine ⟨hok.symm.trans htables, _, frame, rfl, hcount.live, ?_⟩
      rw [← hcount.leaves]
      rfl
    | false =>
      right
      refine ⟨hok.symm.trans htables, ?_⟩
      rw [if_neg Bool.false_ne_true]
      split_ifs
      · exact ⟨nofun, hcount⟩
      · exact ⟨nofun, hcount.trans ⟨rfl, rfl, rfl⟩⟩
      · exact ⟨nofun, hcount.trans ⟨rfl, rfl, rfl⟩⟩
  · right
    rw [hframe] at hsame
    unfold Trap.page at hframe
    rw [hframe]
    exact ⟨hno, nofun, hsame⟩

theorem demandPage_unmapped (hr : s.demandRegion t = none) : s.demandPage t.toFault = (.unmapped, s) := by
  unfold demandRegion regionAt at hr
  unfold demandPage
  split_ifs at hr with huser
  · rw [if_pos huser, hr]
  · rw [if_neg huser]

theorem pageFault_absent (hnone : s.lookup t.root t.page = none) : s.pageFault t.toFault = s.demandPage t.toFault := by
  have hno : (if t.write = true then s.lookup t.root (t.addr / PAGE_SIZE) else none) = none := by
    split_ifs
    · exact hnone
    · rfl
  unfold pageFault
  dsimp only
  rw [hno]

/-! ## Stacks -/

/-- a stack that grows gets a page that can be read and written -/
theorem growStack_spec {s1 : Machine} (hnone : s.lookup t.root t.page = none) (hsame : SameMap s s1)
    (hs1 : (s.demandPage t.toFault).2 = s1) :
    (∃ rs s' frame, s.growRoute t = .grown rs ∧ s1.growStack t = (true, s') ∧ Added s s' t frame stackFlags ∧
      growRegions t.addr (s.spaces t.root).mmapRegions = some rs ∧
      s'.spaces = (s.setSpace t.root { s.spaces t.root with mmapRegions := rs }).spaces) ∨
    (s.growRoute t = .refused ∧ (s1.growStack t).1 = false ∧ (s1.growStack t).2.leaves = s.leaves) := by
  unfold growRoute growStack
  rw [hs1, hsame.spaces]
  by_cases hon : t.onStack = true
  swap
  · rw [if_neg hon, eq_false_iff.2 hon]
    exact .inr ⟨rfl, rfl, hsame.leaves⟩
  rw [if_pos hon, hon, Bool.true_and]
  cases hgrow : growRegions t.addr (s.spaces t.root).mmapRegions with
  | none =>
    right
    refine ⟨?_, rfl, hsame.leaves⟩
    split_ifs <;> rfl
  | some rs =>
    set s2 := s1.setSpace t.root { s.spaces t.root with mmapRegions := rs } with hs2
    have hspaces : s2.spaces = (s.setSpace t.root { s.spaces t.root with mmapRegions := rs }).spaces := by
      change Function.update s1.spaces t.root _ = Function.update s.spaces t.root _
      rw [hsame.spaces]
    have hframe : s1.frameLeft t.core = (s2.allocate t.core).1.isSome := rfl
    dsimp only
    rw [hframe]
    unfold mapStackPage
    cases hal : s2.allocate t.core with
    | mk o s3 =>
      have hsame3 := sameMap_of_allocate hal
      have hleaves3 : s3.leaves = s.leaves := hsame3.leaves.trans hsame.leaves
      cases o with
      | none =>
        right
        rw [isSome_none, Bool.and_false]
        exact ⟨rfl, rfl, hleaves3⟩
      | some frame =>
        have hfree : s3.lookup t.root t.page = none := by
          rw [lookup, hleaves3]
          exact hnone
        have hmap := mapUserPage_free hfree frame stackFlags t.tablesOk
        unfold Trap.page at hmap
        dsimp only
        rw [hmap]
        cases htables : t.tablesOk with
        | true =>
          left
          refine ⟨rs, _, frame, rfl, rfl, ⟨hsame3.live.trans hsame.live, ?_⟩, rfl, hsame3.spaces.trans hspaces⟩
          rw [← hleaves3]
          rfl
        | false =>
          right
          refine ⟨rfl, ?_, hleaves3⟩
          change (s3.lookup t.root t.page).isSome = false
          rw [hfree]
          rfl

/-! ## The handler -/

theorem handle_resolved (hcan : canonical t.addr = true) (h : s.pageFault t.toFault = (.resolved, s')) :
    s.handle t = (.returned, s') := by
  unfold handle
  rw [hcan, h]
  rfl

theorem handle_unresolved (hcan : canonical t.addr = true) (huser : t.isUser = true)
    (h : (s.pageFault t.toFault).1 ≠ .resolved) :
    s.handle t = (if ((s.pageFault t.toFault).2.growStack t).1 then .returned else .signal,
      ((s.pageFault t.toFault).2.growStack t).2) := by
  unfold handle
  rw [hcan, huser]
  cases hfault : s.pageFault t.toFault with
  | mk o s1 =>
    rw [hfault] at h
    cases hgrow : s1.growStack t with
    | mk b s2 =>
      cases o with
      | resolved => exact absurd rfl h
      | error e =>
        dsimp only
        rw [hgrow]
        cases b <;> rfl
      | unmapped =>
        dsimp only
        rw [hgrow]
        cases b <;> rfl

theorem through_of (h : s'.lookup t.root t.page = some l) (hspaces : s'.spaces = s.spaces) :
    s'.through t = (t.permits l.flags && (s.regionAt t).any fun r => t.allowedBy r.prot) := by
  unfold through regionAt
  rw [h, hspaces]
  rfl

theorem progress_resolved (hcan : canonical t.addr = true)
    (h : s.pageFault t.toFault = (.resolved, s')) : s.Progress t ↔ s'.through t = true := by
  unfold Progress
  rw [handle_resolved hcan h]
  exact ⟨fun hp => hp rfl, fun hp _ => hp⟩

theorem protExec_permits {prot : ℕ} (h : protExec prot = true) : (prot &&& 5 == 0) = false := by
  unfold protExec at h
  rw [bne_iff_ne] at h
  rw [beq_eq_false_iff_ne]
  intro h5
  apply h
  have h4 : prot &&& 4 = prot &&& 5 &&& 4 := (Nat.and_assoc prot 5 4).symm
  rw [h4, h5]
  rfl

/-- the flags of demand paging let through what the region allows, but for a write that is to be copied -/
theorem permits_demandFlags (hkind : (t.write && t.fetch) = false) {r : MappedRegion} (h : t.allowedBy r.prot = true) :
    t.permits (demandFlags r.prot r.copied) = !(t.write && r.copied) := by
  unfold Trap.allowedBy at h
  unfold Trap.permits demandFlags
  cases hw : t.write with
  | true =>
    rw [hw, Bool.true_and] at hkind
    rw [hw, if_pos rfl] at h
    rw [hkind, h]
    cases r.copied <;> rfl
  | false =>
    rw [hw, if_neg Bool.false_ne_true] at h
    cases hf : t.fetch with
    | true =>
      rw [hf, if_pos rfl] at h
      rw [protExec_permits h]
      rfl
    | false => rfl

/-- on a page that is not present, stacks are the last resort -/
theorem progress_grow (hcan : canonical t.addr = true) (huser : t.isUser = true) (hnone : s.lookup t.root t.page = none)
    (hun : (s.demandPage t.toFault).1 ≠ .resolved) (hsame : SameMap s (s.demandPage t.toFault).2) :
    s.Progress t ↔ s.leadsThrough t (s.growRoute t) = true := by
  have hfault := pageFault_absent hnone
  have hhandle := handle_unresolved hcan huser (by rw [hfault]; exact hun)
  rw [hfault] at hhandle
  unfold Progress
  rw [hhandle]
  rcases growStack_spec hnone hsame rfl with ⟨rs, s', frame, hroute, hgrow, hadded, -, hspaces⟩ | ⟨hroute, hgrow, -⟩
  · rw [hroute, hgrow]
    have hthrough : s'.through t = s.leadsThrough t (.grown rs) := by
      unfold through regionAt
      rw [hadded.lookup hnone, hspaces, spaces_setSpace]
      change (true && (!t.write || true) && (!t.fetch || !true) && _) = (!t.fetch && _)
      rw [Bool.or_true, Bool.true_and, Bool.not_true, Bool.or_false, Bool.true_and]
    rw [← hthrough]
    exact ⟨fun hp => hp rfl, fun hp _ => hp⟩
  · rw [hroute, hgrow]
    exact ⟨fun _ => rfl, nofun⟩

/-- **When a page fault makes progress.** Whenever the handler goes back to an access of user code, the entry and the region
allow it, if and only if they do so on the route that the fault takes: a page that was present is accessible to user code, a
write that is let through is one that the region allows, any other access is one that entry and region allowed before, a page
is mapped on demand for an access that its region allows and that is no write to a private file, and a stack does not grow for
a jump or against the protection of its region. -/
theorem handle_progress_iff (s : Machine) (t : Trap) (huser : t.isUser = true)
    (hviolation : t.violation = (s.lookup t.root t.page).isSome) (hkind : (t.write && t.fetch) = false) :
    s.Progress t ↔ s.progressWhen t = true := by
  unfold progressWhen route
  by_cases hcan : canonical t.addr = true
  swap
  · rw [eq_false_iff.2 hcan]
    unfold Progress handle
    rw [eq_false_iff.2 hcan]
    exact ⟨fun _ => rfl, nofun⟩
  rw [hcan]
  cases hl : s.lookup t.root t.page with
  | some l =>
    by_cases hw : (t.write && s.letWritten t l) = true
    · obtain ⟨s', l', hfault, hwritten⟩ := pageFault_written hl hw
      rw [progress_resolved hcan hfault, through_of hwritten.lookup hwritten.entries.spaces]
      change _ ↔ s.leadsThrough t (if (t.write && s.letWritten t l) = true then .written l else _) = true
      rw [if_pos hw]
      have hfetch : t.fetch = false := by
        rw [and_eq_true] at hw
        rw [hw.1, Bool.true_and] at hkind
        exact hkind
      have hpermits : t.permits l'.flags = l.flags.user := by
        unfold Trap.permits
        rw [hwritten.user, hwritten.writable, hfetch, Bool.or_true, Bool.and_true, Bool.not_false, Bool.true_or, Bool.and_true]
      rw [hpermits]
      rfl
    · obtain ⟨s', hfault, hsame⟩ := pageFault_present hl (eq_false_iff.2 hw)
      change _ ↔ s.leadsThrough t (if (t.write && s.letWritten t l) = true then .written l
        else if (s.demandRegion t).isSome = true then .present l else .refused) = true
      rw [if_neg hw]
      by_cases hregion : (s.demandRegion t).isSome = true
      · rw [if_pos hregion] at hfault ⊢
        rw [progress_resolved hcan hfault, through_of ((hsame.lookup t.root t.page).trans hl) hsame.spaces]
        rfl
      · rw [if_neg hregion] at hfault ⊢
        -- the page is present, so no stack grows
        have hhandle := handle_unresolved hcan huser (by rw [hfault]; exact nofun)
        have hoff : t.onStack = false := by
          unfold Trap.onStack
          rw [hviolation, hl, isSome_some, Bool.not_true, Bool.and_false, Bool.false_and]
        have hgrow : ((s.pageFault t.toFault).2.growStack t).1 = false := by
          unfold growStack
          rw [hoff]
          rfl
        unfold Progress
        rw [hhandle, hgrow]
        exact ⟨fun _ => rfl, nofun⟩
  | none =>
    cases hr : s.demandRegion t with
    | none =>
      have hdemand := demandPage_unmapped hr
      refine progress_grow hcan huser hl ?_ ?_
      · rw [hdemand]
        exact nofun
      · rw [hdemand]
        exact SameMap.refl s
    | some r =>
      change _ ↔ s.leadsThrough t (if s.demandable t r = true then .demanded r else s.growRoute t) = true
      rcases demandPage_absent hl hr with ⟨hok, s', frame, hdemand, hadded⟩ | ⟨hno, hun, hsame⟩
      · rw [if_pos hok]
        have hfault : s.pageFault t.toFault = (.resolved, s') := by
          rw [pageFault_absent hl, hdemand]
        have hregion : s.regionAt t = some r := by
          unfold demandRegion at hr
          split_ifs at hr
          exact hr
        have hspaces : s'.spaces = s.spaces := by
          have h := (onlyEntries_demandPage s t.toFault).spaces
          rw [hdemand] at h
          exact h
        rw [progress_resolved hcan hfault, through_of (hadded.lookup hl) hspaces, hregion]
        change (t.permits _ && t.allowedBy r.prot) = true ↔ (t.allowedBy r.prot && _) = true
        cases hallowed : t.allowedBy r.prot with
        | true => rw [permits_demandFlags hkind hallowed, Bool.and_true, Bool.true_and]
        | false => rw [Bool.and_false, Bool.false_and]
      · rw [if_neg (eq_false_iff.1 hno)]
        exact progress_grow hcan huser hl hun hsame

/-! ## Pointers of the user -/

/-- entries are only added, and a success leaves an entry for each of the pages -/
structure Provides (s : Machine) (root : ℕ) (pages : ℕ → Prop) (r : Bool × Machine) : Prop where
  adds : s.leaves <+: r.2.leaves
  maps : r.1 = true → ∀ p, pages p → (r.2.lookup root p).isSome = true

section

variable (s : Machine) (core root : ℕ)

theorem sameMap_ensureFrame (r : MappedRegion) (pageOffset : UInt64) (readOk : Bool) :
    SameMap s (s.ensureFrame core r pageOffset readOk).2 := by
  unfold ensureFrame
  cases r.inode with
  | some inode =>
    have hsame := sameMap_getOrCreatePage s core inode (r.offset + pageOffset) readOk
    dsimp only
    split
    all_goals next heq =>
      rw [heq] at hsame
      exact hsame
  | none =>
    dsimp only
    split
    all_goals next heq => exact sameMap_of_allocate heq

theorem ensurePageMapped_provides (page : ℕ) (readOk tablesOk : Bool) :
    Provides s root (· = page) (s.ensurePageMapped core root page readOk tablesOk) := by
  unfold ensurePageMapped
  split_ifs with hl
  · exact ⟨prefix_rfl, fun _ p hp => hp ▸ hl⟩
  split
  next => exact ⟨prefix_rfl, nofun⟩
  next r rs _ =>
    set s1 := s.setSpace root { s.spaces root with mmapRegions := rs }
    have hsame := sameMap_ensureFrame s1 core r (UInt64.ofNat (page * PAGE_SIZE - r.start)) readOk
    dsimp only
    split
    next heq =>
      rw [heq] at hsame
      exact ⟨hsame.leaves ▸ prefix_rfl, nofun⟩
    next frame doCow s2 heq =>
      rw [heq] at hsame
      have hcount := hsame.trans (sameMap_counted s2 r.inode.isSome frame)
      generalize (if r.inode.isSome = true then s2.incrementRef frame else s2) = s3 at hcount ⊢
      have hfree : s3.lookup root page = none := (hcount.lookup root page).trans (not_isSome_iff_eq_none.1 hl)
      have hleaves : s3.leaves = s.leaves := hcount.leaves
      rw [mapUserPage_free hfree]
      cases tablesOk with
      | true =>
        refine ⟨⟨_, congrArg (· ++ _) hleaves.symm⟩, ?_⟩
        rintro - p rfl
        change (lookup { s3 with leaves := s3.leaves ++ [_] } root p).isSome = true
        rw [lookup_append, hfree, none_or, if_pos ⟨rfl, rfl⟩]
        rfl
      | false =>
        rw [if_neg Bool.false_ne_true]
        dsimp only
        split_ifs <;> exact ⟨hleaves ▸ prefix_rfl, nofun⟩

variable (readOk tablesOk : ℕ → Bool)

theorem ensurePages_provides (n page : ℕ) :
    Provides s root (fun p => page ≤ p ∧ p < page + n) (ensurePages core root readOk tablesOk n page s) := by
  induction n generalizing page s with
  | zero => exact ⟨prefix_rfl, fun _ p hp => by omega⟩
  | succ n ih =>
    have hfirst := ensurePageMapped_provides s core root page (readOk page) (tablesOk page)
    unfold ensurePages
    split
    next heq =>
      rw [heq] at hfirst
      exact ⟨hfirst.adds, nofun⟩
    next s1 heq =>
      rw [heq] at hfirst
      have hrest := ih s1 (page + 1)
      refine ⟨hfirst.adds.trans hrest.adds, fun hok p hp => ?_⟩
      rcases Nat.eq_or_lt_of_le hp.1 with rfl | hlt
      · -- the entry of the first page stays
        obtain ⟨new, hnew⟩ := hrest.adds
        rw [lookup, ← hnew, find?_append, isSome_or]
        exact or_eq_true_iff.2 (.inl (hfirst.maps rfl _ rfl))
      · exact hrest.maps hok p ⟨hlt, by omega⟩

/-- **A validated pointer lies in user space, and all its pages are mapped.** No entry changes. -/
theorem validateUserPtr_mapped (ptr size : ℕ) :
    ∃ ok s', s.validateUserPtr core root ptr size readOk tablesOk = (ok, s') ∧
      s.leaves <+: s'.leaves ∧ (ok = true → 0 < ptr ∧ ptr + size ≤ USER_END ∧
        ∀ addr, ptr ≤ addr → addr < ptr + size → (s'.lookup root (addr / PAGE_SIZE)).isSome = true) := by
  unfold validateUserPtr
  split_ifs with hnull hend hsize
  · exact ⟨_, _, rfl, prefix_rfl, nofun⟩
  · exact ⟨_, _, rfl, prefix_rfl, nofun⟩
  · exact ⟨_, _, rfl, prefix_rfl, fun _ => ⟨by omega, by omega, by omega⟩⟩
  · have hpages := ensurePages_provides s core root readOk tablesOk
      (pageUp (ptr + size) / PAGE_SIZE - ptr / PAGE_SIZE) (ptr / PAGE_SIZE)
    refine ⟨_, _, rfl, hpages.adds, fun hok => ⟨by omega, by omega, fun addr h1 h2 => hpages.maps hok _ ?_⟩⟩
    unfold pageUp PAGE_SIZE
    omega

end

/-! ## A page of code, a guard page and a page of data -/

def threeRegions : Machine :=
  { codePage [10] with
    spaces := fun _ => ⟨0x30000, 0x500000000000, [⟨0x4000, 4096, none, 0, false, 5, false⟩,
      ⟨0x10000, 4096, none, 0, false, 0, false⟩, ⟨0x20000, 4096, none, 0, false, 3, false⟩]⟩ }

/-- an access of user code whose stack is elsewhere -/
def userAccess (addr : ℕ) (write fetch violation : Bool) : Trap :=
  ⟨⟨0, 0, addr, write, false, true, true⟩, fetch, violation, true, 0x700000000000⟩

theorem handle_progress_data : threeRegions.Progress (userAccess 0x20000 true false false) :=
  (handle_progress_iff threeRegions (userAccess 0x20000 true false false) rfl (by decide +kernel) rfl).2 (by decide +kernel)

/-- a write to the code is resolved without any change, again and again; the guard page is mapped, and can be read -/
theorem resolved_without_progress :
    ¬threeRegions.Progress (userAccess 0x4000 true false true) ∧
    (threeRegions.handle (userAccess 0x4000 true false true)).2.lookup 0 4 = threeRegions.lookup 0 4 ∧
    ¬threeRegions.Progress (userAccess 0x10000 false false false) ∧
    ((threeRegions.handle (userAccess 0x10000 false false false)).2.lookup 0 16).any (·.flags.user) = true := by
  have hcode : (threeRegions.handle (userAccess 0x4000 true false true)).1 = .returned ∧
      (threeRegions.handle (userAccess 0x4000 true false true)).2.through (userAccess 0x4000 true false true) = false := by
    decide +kernel
  have hguard : (threeRegions.handle (userAccess 0x10000 false false false)).1 = .returned ∧
      (threeRegions.handle (userAccess 0x10000 false false false)).2.through (userAccess 0x10000 false false false) = false := by
    decide +kernel
  refine ⟨fun h => ?_, by decide +kernel, fun h => ?_, by decide +kernel⟩
  · exact absurd (h hcode.1) (eq_false_iff.1 hcode.2)
  · exact absurd (h hguard.1) (eq_false_iff.1 hguard.2)

end Machine

end Kontsnor.Memory
