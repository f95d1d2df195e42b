import Mathlib.Algebra.BigOperators.Group.Finset.Piecewise
import Vex.Lib.LinkGraph
import Vex.Lib.Run
import Vex.Fs.Ext2Names

/-! Link counts of an ext2 volume follow its directory tree.

The tree is read as a multiset of edges: the edge `(d, i)` stands for an entry of the directory `d`
that names the inode `i`. Every change of records adds, removes or redirects one edge, and the
counts are sums over the edges, so each call is settled by what it does to them. -/

namespace Vex.Fs.Ext2

open Vex.Lib Multiset

attribute [local simp] Except.map

namespace Tree

variable {t t' : Tree} {d i j n : Nat} {name : Name} {r : Record} {rs : List Record}

/-- The edges from the directory `d`: its records other than `"."` and `".."`. -/
def edgesOf (d : Nat) (rs : List Record) : Multiset (Nat × Nat) :=
  ((rs.filter fun r => !isDots r.name).map fun r => (d, r.ino) : List (Nat × Nat))

def edges (t : Tree) : Multiset (Nat × Nat) :=
  ∑ d ∈ Finset.range (t.size + 1), edgesOf d (t.records d)

/-- How many directory entries name the inode. -/
def refs (t : Tree) (i : Nat) : Nat := t.edges.countP fun e => e.2 = i

/-- How many live directories the entries of `d` name. -/
def subdirs (t : Tree) (d : Nat) : Nat :=
  t.edges.countP fun e => e.1 = d ∧ t.kind e.2 = some .dir ∧ t.links e.2 ≠ 0

/-! ## Edges of a changed directory -/

theorem edgesOf_perm (h : rs.Perm rs') : edgesOf d rs = edgesOf d rs' :=
  coe_eq_coe.2 ((h.filter _).map _)

theorem edgesOf_cons (hn : isDots name = false) :
    edgesOf d (⟨name, i⟩ :: rs) = (d, i) ::ₘ edgesOf d rs := by
  simp [edgesOf, hn]

theorem edgesOf_middle (hn : isDots name = false) :
    edgesOf d (l1 ++ ⟨name, i⟩ :: l2) = (d, i) ::ₘ edgesOf d (l1 ++ l2) := by
  rw [edgesOf_perm List.perm_middle, edgesOf_cons hn]

theorem edgesOf_middle_dots (hn : isDots name = true) :
    edgesOf d (l1 ++ ⟨name, i⟩ :: l2) = edgesOf d (l1 ++ l2) := by
  simp [edgesOf, hn]

theorem mem_edgesOf : e ∈ edgesOf d rs ↔ ∃ r ∈ rs, isDots r.name = false ∧ (d, r.ino) = e := by
  simp [edgesOf, and_assoc]

theorem mem_edges : (d, i) ∈ t.edges ↔
    d ≤ t.size ∧ ∃ r ∈ t.records d, isDots r.name = false ∧ r.ino = i := by
  simp only [edges, mem_sum, Finset.mem_range, mem_edgesOf, Prod.mk.injEq]
  constructor
  · rintro ⟨d', hd, r, hr, hn, rfl, hi⟩
    exact ⟨by omega, r, hr, hn, hi⟩
  · rintro ⟨hd, r, hr, hn, hi⟩
    exact ⟨d, by omega, r, hr, hn, rfl, hi⟩

theorem edges_setRecords (rs : List Record) (hd : d ≤ t.size) :
    (t.setRecords d rs).edges + edgesOf d (t.records d) = t.edges + edgesOf d rs := by
  have hmem : d ∈ Finset.range (t.size + 1) := by simpa [Nat.lt_succ_iff] using hd
  have hrs : ∑ e ∈ (Finset.range (t.size + 1)).erase d,
      edgesOf e ((t.setRecords d rs).records e) =
        ∑ e ∈ (Finset.range (t.size + 1)).erase d, edgesOf e (t.records e) :=
    Finset.sum_congr rfl fun e he => by simp [Finset.ne_of_mem_erase he]
  have hsz : (t.setRecords d rs).size = t.size := rfl
  simp only [edges, hsz]
  rw [← Finset.sum_erase_add _ _ hmem, ← Finset.sum_erase_add _ _ hmem, hrs]
  simp only [setRecords_records]
  exact add_right_comm _ _ _

@[simp] theorem edges_setKind : (t.setKind i k).edges = t.edges := rfl
@[simp] theorem edges_setLinks : (t.setLinks i n).edges = t.edges := rfl

/-! ## Tidy directories -/

/-- What `ext2_dirent_*` keeps of the records, whatever they name. -/
structure Tidy (t : Tree) : Prop where
  sized : ∀ {i}, t.kind i ≠ none → i ≤ t.size
  plain : ∀ {i}, t.kind i ≠ some .dir → t.records i = []
  names : ∀ d, ((t.records d).map Record.name).Nodup
  dot : ∀ {d}, t.kind d = some .dir → ⟨DOT, d⟩ ∈ t.records d
  dotdot : ∀ {d}, t.kind d = some .dir → ∃ p, ⟨DOTDOT, p⟩ ∈ t.records d
  width : ∀ i, t.links i < 2 ^ 16

theorem split_of_mem (hn : (rs.map Record.name).Nodup) (hr : r ∈ rs) :
    ∃ l1 l2, rs = l1 ++ r :: l2 ∧ (rs.eraseP fun s => s.name == r.name) = l1 ++ l2 ∧
      ∀ ino, retarget r.name ino rs = l1 ++ ⟨r.name, ino⟩ :: l2 := by
  induction rs with
  | nil => cases hr
  | cons s rs ih =>
    rw [List.map_cons, List.nodup_cons] at hn
    rcases List.mem_cons.1 hr with rfl | hr
    · exact ⟨[], rs, by simp [retarget]⟩
    have hne : s.name ≠ r.name := fun h => hn.1 (h ▸ List.mem_map_of_mem hr)
    obtain ⟨l1, l2, hl, he, ht⟩ := ih hn.2 hr
    refine ⟨s :: l1, l2, by simp [hl], ?_, fun ino => ?_⟩
    · simp [hne, he]
    · simp [retarget, hne, ht]

theorem find?_name_eq_some (hn : (rs.map Record.name).Nodup) :
    (rs.find? fun s => s.name == name) = some r ↔ r ∈ rs ∧ r.name = name := by
  constructor
  · intro h
    exact ⟨List.mem_of_find?_eq_some h, by simpa using List.find?_some h⟩
  rintro ⟨hr, rfl⟩
  obtain ⟨l1, l2, rfl, -⟩ := split_of_mem hn hr
  have hl : ∀ s ∈ l1, ¬s.name = r.name := fun s hs h => by
    simp only [List.map_append, List.nodup_append, List.mem_map] at hn
    exact hn.2.2 s.name ⟨s, hs, rfl⟩ r.name (by simp) h
  rw [List.find?_eq_some_iff_append]
  exact ⟨by simp, l1, l2, rfl, by simpa using hl⟩

theorem Tidy.direntFind (h : t.Tidy) :
    Ext2.direntFind t d name = some r ↔ r ∈ t.records d ∧ r.name = name :=
  find?_name_eq_some (h.names d)

theorem direntFind_eq_none :
    Ext2.direntFind t d name = none ↔ ∀ r ∈ t.records d, r.name ≠ name := by
  simp [Ext2.direntFind]

theorem Tidy.isDir (h : t.Tidy) (hr : r ∈ t.records d) : t.kind d = some .dir := by
  by_contra hk
  rw [h.plain hk] at hr
  cases hr

theorem Tidy.le_size (h : t.Tidy) (hk : t.kind d = some .dir) : d ≤ t.size :=
  h.sized (by simp [hk])

theorem Tidy.mem_edges (h : t.Tidy) :
    (d, i) ∈ t.edges ↔ ∃ r ∈ t.records d, isDots r.name = false ∧ r.ino = i := by
  rw [Tree.mem_edges]
  exact ⟨And.right, fun ⟨r, hr, hn⟩ => ⟨h.le_size (h.isDir hr), r, hr, hn⟩⟩

/-- `t'` has other records in the directory `d`, with the same dots. -/
structure Relists (t t' : Tree) (d : Nat) : Prop where
  size : t'.size = t.size
  kind : t'.kind = t.kind
  links : t'.links = t.links
  dots : ∀ {e r}, isDots r.name → (r ∈ t'.records e ↔ r ∈ t.records e)
  tidy : t'.Tidy

section
variable (h : t.Tidy)
include h

theorem Tidy.of_at (hsz : t'.size = t.size) (hoff : ∀ {j}, j ≠ i →
      t'.kind j = t.kind j ∧ t'.records j = t.records j ∧ t'.links j = t.links j)
    (hsized : t'.kind i ≠ none → i ≤ t.size)
    (hpln : t'.kind i ≠ some .dir → t'.records i = [])
    (hnms : ((t'.records i).map Record.name).Nodup)
    (hdots : t'.kind i = some .dir → ⟨DOT, i⟩ ∈ t'.records i ∧ ∃ p, ⟨DOTDOT, p⟩ ∈ t'.records i)
    (hwidth : t'.links i < 2 ^ 16) : t'.Tidy := by
  obtain ⟨sized, plain, names, dot, dotdot, width⟩ := h
  constructor <;> grind

theorem Tidy.setRecords (hk : t.kind d = some .dir) (hn : (rs.map Record.name).Nodup)
    (hdots : ∀ {r}, isDots r.name → (r ∈ rs ↔ r ∈ t.records d)) :
    Relists t (t.setRecords d rs) d := by
  have hmem : ∀ {e r}, isDots r.name → (r ∈ (t.setRecords d rs).records e ↔ r ∈ t.records e) := by
    intro e r hr
    by_cases he : e = d
    · subst he
      simp [hdots hr]
    · simp [he]
  refine ⟨rfl, rfl, rfl, hmem, h.of_at (i := d) rfl (by simp +contextual) ?_ (absurd hk)
    (by simpa using hn) (fun _ => ?_) (h.width d)⟩
  · exact h.sized
  · obtain ⟨p, hp⟩ := h.dotdot hk
    exact ⟨(hmem rfl).2 (h.dot hk), p, (hmem rfl).2 hp⟩

theorem Tidy.direntAdd (hk : t.kind d = some .dir) (hnone : Ext2.direntFind t d name = none)
    (hnm : isDots name = false) (hadd : Ext2.direntAdd t d name i slot = .ok t') :
    Relists t t' d ∧ t'.edges = (d, i) ::ₘ t.edges ∧
      ∀ e, ∀ r ∈ t.records e, r ∈ t'.records e := by
  cases slot with
  | none => cases hadd
  | some slot =>
    cases hadd
    have hpm : ((t.records d).take slot ++ ⟨name, i⟩ :: (t.records d).drop slot).Perm
        (⟨name, i⟩ :: t.records d) := by
      refine List.perm_middle.trans ?_
      rw [List.take_append_drop]
    refine ⟨h.setRecords hk ?_ fun {r} hr => ?_, ?_, fun e r hr => ?_⟩
    · refine (hpm.map Record.name).nodup_iff.2 (List.nodup_cons.2 ⟨?_, h.names d⟩)
      simpa using direntFind_eq_none.1 hnone
    · rw [hpm.mem_iff, List.mem_cons, or_iff_right]
      rintro rfl
      simp [hnm] at hr
    · have he := edges_setRecords ((t.records d).take slot ++ ⟨name, i⟩ ::
        (t.records d).drop slot) (h.le_size hk)
      rw [edgesOf_perm hpm, edgesOf_cons hnm] at he
      exact add_right_cancel (he.trans (by simp))
    · by_cases he : e = d
      · subst he
        simp [hpm.mem_iff, hr]
      · simpa [he] using hr

theorem Tidy.direntRemove (hr : r ∈ t.records d) (hnm : isDots r.name = false) :
    Relists t (Ext2.direntRemove t d r.name) d ∧
      t.edges = (d, r.ino) ::ₘ (Ext2.direntRemove t d r.name).edges := by
  obtain ⟨l1, l2, hl, he, -⟩ := split_of_mem (h.names d) hr
  rw [Ext2.direntRemove, he]
  refine ⟨h.setRecords (h.isDir hr) ?_ fun {s} hs => ?_, ?_⟩
  · have hn := h.names d
    rw [hl] at hn
    exact hn.sublist (((List.sublist_cons_self r l2).append_left l1).map _)
  · have hne : s ≠ r := fun hsr => by simp [hsr, hnm] at hs
    simp [hl, hne]
  · have he := edges_setRecords (l1 ++ l2) (h.le_size (h.isDir hr))
    rw [hl, edgesOf_middle hnm] at he
    exact (add_right_cancel (he.symm.trans (by simp)))

theorem Tidy.direntRetarget (hr : r ∈ t.records d) (hnm : isDots r.name = false)
    (hre : Ext2.direntRetarget t d r.name i = t') :
    Relists t t' d ∧ (d, r.ino) ::ₘ t'.edges = (d, i) ::ₘ t.edges ∧
      ∀ e, ∀ s ∈ t.records e, ¬(e = d ∧ s.name = r.name) → s ∈ t'.records e := by
  obtain ⟨l1, l2, hl, -, ht⟩ := split_of_mem (h.names d) hr
  rw [Ext2.direntRetarget, ht] at hre
  subst hre
  refine ⟨h.setRecords (h.isDir hr) ?_ fun {s} hs => ?_, ?_, fun e s hs hne => ?_⟩
  · have hn := h.names d
    rw [hl] at hn
    simpa using hn
  · have hne : s ≠ r := fun hsr => by simp [hsr, hnm] at hs
    have hne' : s ≠ ⟨r.name, i⟩ := fun hsr => by simp [hsr, hnm] at hs
    simp [hl, hne, hne']
  · have he := edges_setRecords (l1 ++ ⟨r.name, i⟩ :: l2) (h.le_size (h.isDir hr))
    rw [edgesOf_middle hnm, hl, edgesOf_middle hnm] at he
    refine add_right_cancel (b := edgesOf d (l1 ++ l2)) ?_
    simpa using he
  · by_cases he : e = d
    · subst he
      have hsr : s ≠ r := fun h => hne ⟨rfl, by rw [h]⟩
      rw [hl] at hs
      have hs : s ∈ l1 ∨ s ∈ l2 := by simpa [hsr] using hs
      simp [hs.imp_right Or.inr]
    · simpa [he] using hs

theorem Tidy.retargetUp (hk : t.kind d = some .dir) (hu : Ext2.direntRetarget t d DOTDOT i = t') :
    t'.Tidy ∧ t'.edges = t.edges ∧ ⟨DOTDOT, i⟩ ∈ t'.records d := by
  obtain ⟨p, hp⟩ := h.dotdot hk
  obtain ⟨l1, l2, hl, -, ht⟩ := split_of_mem (h.names d) hp
  obtain rfl : t.setRecords d (l1 ++ ⟨DOTDOT, i⟩ :: l2) = t' := by
    rw [← hu, Ext2.direntRetarget, ht]
  refine ⟨h.of_at (i := d) rfl (by simp +contextual) h.sized (absurd hk) ?_
    (fun _ => ⟨?_, i, by simp⟩) (h.width d), ?_, by simp⟩
  · simpa [hl] using h.names d
  · simpa [hl] using h.dot hk
  have he := edges_setRecords (l1 ++ ⟨DOTDOT, i⟩ :: l2) (h.le_size hk)
  rw [hl, edgesOf_middle_dots rfl, edgesOf_middle_dots rfl] at he
  exact add_right_cancel he

/-! ## New inodes -/

theorem Tidy.newFile (hi : t.kind i = none) (hs : i ≤ t.size) (ht : type ≠ .dir) :
    ((t.setKind i (some type)).setLinks i 1).Tidy := by
  refine h.of_at (i := i) rfl (by simp +contextual) (fun _ => hs) (fun _ => ?_) (h.names i)
    (by simp [ht]) (by simp)
  exact h.plain (by simp [hi])

theorem Tidy.newDir (hi : t.kind i = none) (hs : i ≤ t.size) :
    (dirInit ((t.setKind i (some .dir)).setLinks i 2) i d).Tidy ∧
      (dirInit ((t.setKind i (some .dir)).setLinks i 2) i d).edges = t.edges := by
  have hnil : t.records i = [] := h.plain (by simp [hi])
  refine ⟨h.of_at (i := i) rfl (by simp +contextual [dirInit]) (fun _ => hs) (by simp [dirInit])
    (by simp [dirInit]) (by simp [dirInit]) (by simp [dirInit]), ?_⟩
  · have he := edges_setRecords (t := (t.setKind i (some .dir)).setLinks i 2)
      [⟨DOT, i⟩, ⟨DOTDOT, d⟩] hs
    have hdots : edgesOf i [⟨DOT, i⟩, ⟨DOTDOT, d⟩] = edgesOf i (t.records i) := by
      rw [hnil]
      rfl
    rw [hdots] at he
    exact add_right_cancel he

/-! ## Consistent volumes -/

theorem Tidy.setLinks (hn : n < 2 ^ 16) : (t.setLinks i n).Tidy := by
  refine h.of_at (i := i) rfl (by simp +contextual) h.sized h.plain (h.names i) (fun hk => ?_)
    (by simpa using hn)
  exact ⟨h.dot hk, h.dotdot hk⟩

end

theorem addLinksLocked_succ (h : t.links i + 1 < 2 ^ 16) :
    addLinksLocked t i 1 = t.setLinks i (t.links i + 1) := by
  have : ((t.links i : Int) + 1).toNat % 2 ^ 16 = t.links i + 1 := by omega
  rw [addLinksLocked, this]

theorem addLinksLocked_pred (h : t.links i < 2 ^ 16) :
    addLinksLocked t i (-1) = t.setLinks i (t.links i - 1) := by
  have : ((t.links i : Int) + -1).toNat % 2 ^ 16 = t.links i - 1 := by omega
  rw [addLinksLocked, this]

/-- Directories are the inner nodes, and their `".."` is what they record above them. -/
@[simps] def graph (t : Tree) : LinkGraph Nat where
  inner i := t.kind i = some .dir
  links := t.links
  edges := t.edges
  up i d := ⟨DOTDOT, d⟩ ∈ t.records i

structure Consistent (t : Tree) : Prop where
  tidy : t.Tidy
  free : ∀ {i}, t.kind i = none → t.links i = 0
  linked : t.graph.Linked ROOT_INO
  root : ⟨DOTDOT, ROOT_INO⟩ ∈ t.records ROOT_INO

section
variable (h : t.Consistent)
include h

theorem Consistent.not_dots (hk : t.kind d = some .dir) (hnone : direntFind t d name = none) :
    isDots name = false := by
  rw [direntFind_eq_none] at hnone
  obtain ⟨p, hp⟩ := h.tidy.dotdot hk
  have h1 : name ≠ DOT := (hnone _ (h.tidy.dot hk)).symm
  have h2 : name ≠ DOTDOT := (hnone _ hp).symm
  simp [isDots, h1, h2]

variable {slot : Option Nat}

theorem Consistent.createFile (ht : type ≠ .dir) (hk : t.kind d = some .dir) (hlive : t.links d ≠ 0)
    (hnone : direntFind t d name = none) (hi : t.kind i = none) (hs : i ≤ t.size)
    (hadd : direntAdd ((t.setKind i (some type)).setLinks i 1) d name i slot = .ok t') :
    t'.Consistent := by
  have hdi : d ≠ i := fun hdi => by simp [← hdi, hk] at hi
  have hty := h.tidy.newFile hi hs ht
  obtain ⟨hre, heds, -⟩ := hty.direntAdd (by simpa [hdi] using hk) hnone
    (h.not_dots hk hnone) hadd
  refine ⟨hre.tidy, fun {j} hj => ?_, ?_, (hre.dots rfl).2 h.root⟩
  · have hji : j ≠ i := fun hji => by simp [hre.kind, hji] at hj
    simpa [hre.links, hji] using h.free (by simpa [hre.kind, hji] using hj)
  refine h.linked.add_leaf (by simp [hi]) hlive (by simp [hk]) ?_ ?_ heds ?_
  · funext j
    by_cases hji : j = i
    · simp [hre.kind, hji, ht, hi]
    · simp [hre.kind, hji]
  · funext j e
    exact propext (hre.dots rfl)
  · intro j
    simp [hre.links, h.free hi]

theorem Consistent.createDir (hk : t.kind d = some .dir) (hlive : t.links d ≠ 0)
    (hmax : t.links d < LINK_MAX)
    (hnone : direntFind t d name = none) (hi : t.kind i = none) (hs : i ≤ t.size)
    (hadd : direntAdd (addLinksLocked (dirInit ((t.setKind i (some .dir)).setLinks i 2) i d) d 1)
      d name i slot = .ok t') : t'.Consistent := by
  have hdi : d ≠ i := fun hdi => by simp [← hdi, hk] at hi
  obtain ⟨hty, hedges0⟩ := h.tidy.newDir hi hs
  have hlks : (dirInit ((t.setKind i (some .dir)).setLinks i 2) i d).links d = t.links d := by
    simp [dirInit, hdi]
  have hmax : t.links d + 1 < 2 ^ 16 := Nat.lt_trans (Nat.succ_lt_succ hmax) (by decide)
  rw [addLinksLocked_succ (by rwa [hlks]), hlks] at hadd
  obtain ⟨hre, heds, -⟩ := (hty.setLinks hmax).direntAdd (by simp [dirInit, hk])
    (by simpa [direntFind, dirInit, hdi] using hnone) (h.not_dots hk hnone) hadd
  have hup : ∀ {j e}, j ≠ i → (⟨DOTDOT, e⟩ ∈ t'.records j ↔ ⟨DOTDOT, e⟩ ∈ t.records j) := by
    intro j e hji
    rw [hre.dots rfl]
    simp [dirInit, hji]
  refine ⟨hre.tidy, fun {j} hj => ?_, ?_, ?_⟩
  · have hji : j ≠ i := fun hji => by simp [hre.kind, dirInit, hji] at hj
    have hjd : j ≠ d := fun hjd => by simp [hre.kind, dirInit, hjd, hk] at hj
    simpa [hre.links, dirInit, hji, hjd] using h.free (by simpa [hre.kind, dirInit, hji] using hj)
  · have hnew : LinkGraph.Linked { t'.graph with links := t.links, edges := t.edges } ROOT_INO :=
      h.linked.set_inner (h.free hi) (fun j hji => by simp [hre.kind, dirInit, hji])
        (fun hji => (hup hji).2) rfl rfl
    refine hnew.add_inner (by simp [hre.kind, dirInit]) (h.free hi) hlive
      (by simp [hre.kind, dirInit, hk]) rfl rfl ((hre.dots rfl).2 (by simp [dirInit])) ?_ ?_
    · simpa [hedges0] using heds
    · intro j
      simp [hre.links, dirInit]
  · have hrt : ROOT_INO ≠ i := fun hr => h.linked.root_live (hr ▸ h.free hi)
    exact (hup hrt).2 h.root

theorem Consistent.create (hlive : t.links d ≠ 0) (hc : createLocked t d name type i slot = .ok t')
    : t'.Consistent := by
  simp only [createLocked, guard_eq_ok, not_not] at hc
  obtain ⟨hk, -, hmax, hnone, hc⟩ := hc
  have hnone : direntFind t d name = none := by simpa using hnone
  cases ha : inodeAnswer t i with
  | none => simp [ha] at hc
  | some j =>
    simp only [ha] at hc
    obtain ⟨⟨-, hs, hi⟩, rfl⟩ : (i ≠ 0 ∧ i ≤ t.size ∧ t.kind i = none) ∧ i = j := by
      simpa [inodeAnswer] using ha
    by_cases ht : type = .dir
    · subst ht
      exact h.createDir hk hlive (by simpa using hmax) hnone hi hs (by simpa using hc)
    · exact h.createFile ht hk hlive hnone hi hs (by simpa [ht] using hc)

theorem Consistent.link (hk : t.kind d = some .dir) (hlive : t.links d ≠ 0)
    (hc : linkCrossed t d name i slot = .ok t') : t'.Consistent := by
  simp only [linkCrossed, bind_eq_ok, checkNewName, linkLocked, guard_eq_ok] at hc
  obtain ⟨hi, _, ⟨-, hnm, -⟩, -, hli, hmax, hnone, hc⟩ := hc
  have hnm : isDots name = false := by simpa using hnm
  have hnone : direntFind t d name = none := by simpa using hnone
  cases ha : direntAdd t d name i slot with
  | error e => simp [ha] at hc
  | ok t1 =>
    obtain ⟨hre, heds, -⟩ := h.tidy.direntAdd hk hnone hnm ha
    have hmax : t.links i + 1 < 2 ^ 16 :=
      Nat.lt_trans (Nat.succ_lt_succ (Nat.lt_of_not_le hmax)) (by decide)
    have hmax1 : t1.links i + 1 < 2 ^ 16 := by rwa [hre.links]
    obtain rfl : t1.setLinks i (t1.links i + 1) = t' := by
      simpa [ha, addLinksLocked_succ hmax1] using hc
    refine ⟨hre.tidy.setLinks hmax1, fun {j} hj => ?_, ?_, (hre.dots rfl).2 h.root⟩
    · have hj : t.kind j = none := by simpa [hre.kind] using hj
      have hji : j ≠ i := fun hji => hli (hji ▸ h.free hj)
      simpa [hre.links, hji] using h.free hj
    refine h.linked.add_leaf (by simp [hi]) hlive (by simp [hk]) ?_ ?_ heds ?_
    · funext j
      simp [hre.kind]
    · funext j e
      exact propext (hre.dots rfl)
    · intro j
      simp [hre.links]

end

/-! ## Names that go -/

theorem findEntryLocked_eq_ok (h : t.Tidy) (hf : findEntryLocked t d name i = .ok ()) :
    ⟨name, i⟩ ∈ t.records d := by
  unfold findEntryLocked at hf
  cases hr : direntFind t d name with
  | none => simp [hr] at hf
  | some r =>
    obtain ⟨hm, rfl⟩ := h.direntFind.1 hr
    simp only [hr, guard_eq_ok, not_not] at hf
    obtain ⟨rfl, -⟩ := hf
    exact hm

theorem Tidy.not_mem_edges (h : t.Tidy) (hd : dirCheckEmpty t d = .ok ()) :
    (d, i) ∉ t.edges := by
  rw [h.mem_edges]
  rintro ⟨r, hr, hnm, -⟩
  unfold dirCheckEmpty at hd
  split at hd
  case isTrue hall => simp [List.all_eq_true.1 hall r hr] at hnm
  case isFalse => cases hd

/-- What `drop_entry_target_locked` leaves of the counts once the entry is gone, the count of the
directory that held it being one less if the target is a directory. -/
def dropped (t : Tree) (d i : Nat) : Nat → Nat := fun j =>
  if t.kind i = some .dir then
    if j = i then 0 else if j = d then t.links d - 1 else t.links j
  else if j = i then t.links i - 1 else t.links j

theorem uncountTarget_spec (h : t.Tidy) (hu : uncountTarget t d i = t') :
    t'.Tidy ∧ t'.kind = t.kind ∧ t'.records = t.records ∧ t'.edges = t.edges ∧
      t'.links = dropped t d i := by
  have hpred : ∀ j, t.links j - 1 < 2 ^ 16 := fun j => (Nat.sub_le _ _).trans_lt (h.width j)
  by_cases hi : t.kind i = some .dir
  · obtain rfl : (t.setLinks d (t.links d - 1)).setLinks i 0 = t' := by
      simp [← hu, uncountTarget, dropEntryTargetLocked, hi, addLinksLocked_pred (h.width d)]
    refine ⟨(h.setLinks (hpred d)).setLinks (by decide), rfl, rfl, rfl, ?_⟩
    funext j
    simp [dropped, hi]
  · obtain rfl : t.setLinks i (t.links i - 1) = t' := by
      simp [← hu, uncountTarget, dropEntryTargetLocked, hi, addLinksLocked_pred (h.width i)]
    refine ⟨h.setLinks (hpred i), rfl, rfl, rfl, ?_⟩
    funext j
    simp [dropped, hi]

theorem dropped_le : dropped t d i j ≤ t.links j := by
  grind [dropped]

/-- An entry goes whose target is counted less by one, or gone. -/
theorem linked_drop {g g' : LinkGraph Nat} (h : g.Linked ROOT_INO)
    (hinn : g.inner = t.graph.inner) (hlks : g.links = t.links)
    (hemp : t.kind i = some .dir → ∀ {j}, (i, j) ∉ g.edges)
    (hinner' : g'.inner = g.inner) (hup' : g'.up = g.up) (heds : g.edges = (d, i) ::ₘ g'.edges)
    (hlk' : g'.links = dropped t d i) : g'.Linked ROOT_INO := by
  by_cases hi : t.kind i = some .dir
  · exact h.drop_inner (by simp [hinn, hi]) (hemp hi) hinner' hup' heds
      fun j => by simp [hlk', hlks, dropped, hi]
  · exact h.drop_leaf (by simp [hinn, hi]) hinner' hup' heds
      fun j => by simp [hlk', hlks, dropped, hi]

theorem Consistent.unlink (h : t.Consistent) (hnm : isDots name = false)
    (hc : unlinkLocked t d name i = .ok t') : t'.Consistent := by
  simp only [unlinkLocked, bind_eq_ok] at hc
  obtain ⟨⟨⟩, hfd, ⟨⟩, hvic, ⟨⟩⟩ := hc
  have hmem := findEntryLocked_eq_ok h.tidy hfd
  obtain ⟨hre, heds⟩ := h.tidy.direntRemove hmem hnm
  obtain ⟨hty, hkd, hrec, heds', hlks⟩ := uncountTarget_spec hre.tidy rfl
  refine ⟨hty, fun {j} hj => ?_, ?_, hrec ▸ (hre.dots rfl).2 h.root⟩
  · have hj : t.kind j = none := by simpa [hkd, hre.kind] using hj
    rw [hlks]
    exact Nat.eq_zero_of_le_zero (h.free hj ▸ dropped_le)
  refine linked_drop h.linked rfl rfl (fun hi j => ?_) ?_ ?_ ?_ hlks
  · rw [checkVictim, if_pos hi] at hvic
    exact h.tidy.not_mem_edges hvic
  · simp [graph, hkd, hre.kind]
  · funext j e
    simp [hrec, hre.dots (r := ⟨DOTDOT, e⟩) rfl]
  · simpa [heds'] using heds

/-! ## Names that move -/

/-- The edge that goes with a file that is renamed over. -/
def victimEdges (nd : Nat) : Option Nat → Multiset (Nat × Nat)
  | none => 0
  | some v => {(nd, v)}

theorem renameRecords_spec (h : t.Tidy) (hnd : t.kind nd = some .dir)
    (hold : ⟨oldname, s⟩ ∈ t.records od) (hon : isDots oldname = false)
    (hnn : isDots newname = false)
    (hvic : (direntFind t nd newname).map Record.ino = victim) (hne : victim ≠ some s)
    (hc : renameRecords t od oldname s nd newname victim slot = .ok t') :
    t'.Tidy ∧ t'.kind = t.kind ∧ t'.links = t.links ∧
      (∀ {e p}, ⟨DOTDOT, p⟩ ∈ t'.records e ↔ ⟨DOTDOT, p⟩ ∈ t.records e) ∧
      ∃ E, t'.edges = (nd, s) ::ₘ E ∧ t.edges = (od, s) ::ₘ (victimEdges nd victim + E) := by
  -- Whether the new name is added or redirected, the old record is still there to be removed.
  obtain ⟨t1, rfl, hre, hold1, heds⟩ : ∃ t1, t' = direntRemove t1 od oldname ∧
      Relists t t1 nd ∧ ⟨oldname, s⟩ ∈ t1.records od ∧
      victimEdges nd victim + t1.edges = (nd, s) ::ₘ t.edges := by
    cases hfd : direntFind t nd newname with
    | none =>
      obtain rfl : none = victim := by simpa [hfd] using hvic
      simp only [renameRecords] at hc
      cases ha : direntAdd t nd newname s slot with
      | error e => simp [ha] at hc
      | ok t1 =>
        obtain ⟨hre, heds, hmem⟩ := h.direntAdd hnd hfd hnn ha
        refine ⟨t1, ?_, hre, hmem _ _ hold, by simpa [victimEdges] using heds⟩
        simpa [ha] using hc.symm
    | some r =>
      obtain rfl : some r.ino = victim := by simpa [hfd] using hvic
      obtain ⟨hr, rfl⟩ := h.direntFind.1 hfd
      simp only [renameRecords, Except.ok.injEq] at hc
      obtain ⟨hre, heds, hmem⟩ := h.direntRetarget hr hnn rfl
      refine ⟨_, hc.symm, hre, hmem _ _ hold ?_, by simpa [victimEdges] using heds⟩
      rintro ⟨rfl, hnm⟩
      have heq : direntFind t od r.name = _ := h.direntFind.2 ⟨hold, hnm⟩
      rw [hfd] at heq
      exact hne (by simpa using congrArg (Option.map Record.ino) heq)
  obtain ⟨hre', heds'⟩ := hre.tidy.direntRemove hold1 hon
  refine ⟨hre'.tidy, by rw [hre'.kind, hre.kind], by rw [hre'.links, hre.links],
    fun {e p} => by rw [hre'.dots rfl, hre.dots rfl], ?_⟩
  have hnot : (nd, s) ∉ victimEdges nd victim := by
    cases victim with
    | none => simp [victimEdges]
    | some v => simpa [victimEdges, eq_comm] using hne
  have hmem : (nd, s) ∈ (direntRemove t1 od oldname).edges := by
    rw [heds'] at heds
    by_cases hd : nd = od
    · subst hd
      rw [add_cons, cons_inj_right] at heds
      have hmem := h.mem_edges.2 ⟨_, hold, hon, rfl⟩
      rw [← heds] at hmem
      exact (mem_add.1 hmem).resolve_left hnot
    · have hmem : (nd, s) ∈ (nd, s) ::ₘ t.edges := mem_cons_self _ _
      rw [← heds] at hmem
      simpa [hd, hnot] using hmem
  obtain ⟨E, hE⟩ := exists_cons_of_mem hmem
  refine ⟨E, hE, ?_⟩
  rw [heds', hE, cons_swap, add_cons, cons_inj_right] at heds
  rw [← heds, add_cons]

theorem moveDotdot_spec (h : t.Tidy)
    (hmax : t.kind s = some .dir → od ≠ nd → t.links nd + 1 < 2 ^ 16)
    (hm : moveDotdot t od s nd = t') :
    t'.Tidy ∧ t'.kind = t.kind ∧ t'.edges = t.edges ∧
      (∀ e, e ≠ s → t'.records e = t.records e) ∧
      (if t.kind s = some .dir ∧ od ≠ nd then
        ⟨DOTDOT, nd⟩ ∈ t'.records s ∧ ∀ j, t'.links j =
          if j = nd then t.links nd + 1 else if j = od then t.links od - 1 else t.links j
      else t' = t) := by
  rw [moveDotdot] at hm
  by_cases hs : t.kind s = some .dir ∧ od ≠ nd
  · obtain ⟨hty, heds, hup⟩ := h.retargetUp (i := nd) hs.1 rfl
    have hmax := hmax hs.1 hs.2
    have hlks : (direntRetarget t s DOTDOT nd).links = t.links := rfl
    rw [if_pos hs, addLinksLocked_pred (hty.width od), addLinksLocked_succ
      (by simpa [hlks, hs.2.symm] using hmax)] at hm
    subst hm
    rw [if_pos hs]
    refine ⟨(hty.setLinks ((Nat.sub_le _ _).trans_lt (h.width od))).setLinks ?_, rfl,
      heds, fun e he => ?_, hup, fun j => ?_⟩
    · simpa [hlks, hs.2.symm] using hmax
    · simp [direntRetarget, he]
    · simp [hlks, hs.2.symm]
  · rw [if_neg hs] at hm ⊢
    subst hm
    exact ⟨h, rfl, rfl, fun _ _ => rfl, rfl⟩

def namesDir (t : Tree) (d : Nat) (name : Name) : Bool :=
  (direntFind t d name).any fun r => t.kind r.ino = some .dir

/-- The entry of the source moves, and the `".."` of a directory with it. -/
theorem Consistent.move (h : t.Consistent) (hnd : t.kind nd = some .dir) (hlive : t.links nd ≠ 0)
    (hmax : t.kind s = some .dir → od ≠ nd → t.links nd + 1 < 2 ^ 16) (hty : t'.Tidy)
    (hkd : t'.kind = t.kind) (hlks : t'.links = t.links)
    (hdots : ∀ {e p}, ⟨DOTDOT, p⟩ ∈ t'.records e ↔ ⟨DOTDOT, p⟩ ∈ t.records e)
    (heds : t.edges = (od, s) ::ₘ (V + E)) (hmv : moveDotdot t' od s nd = t3) :
    LinkGraph.Linked { t3.graph with edges := (nd, s) ::ₘ (V + E) } ROOT_INO := by
  obtain ⟨-, hkd', -, hrec, hmvd⟩ := moveDotdot_spec hty
    (by simpa [hkd, hlks] using hmax) hmv
  have hup : ∀ {j e}, j ≠ s → ⟨DOTDOT, e⟩ ∈ t.records j → ⟨DOTDOT, e⟩ ∈ t3.records j := by
    intro j e hj he
    rw [hrec _ hj]
    exact hdots.2 he
  by_cases hm : t'.kind s = some .dir ∧ od ≠ nd
  · rw [if_pos hm] at hmvd
    refine h.linked.move_inner hlive (by simp [hnd]) hm.2.symm
      (by simpa [hkd] using hm.1) (by simp [graph, hkd', hkd]) hup hmvd.1 heds rfl
      fun j => ?_
    simp [hmvd.2, hlks]
  · rw [if_neg hm] at hmvd
    simp only [hmvd]
    refine h.linked.move hlive (by simp [hnd]) (fun hi => ?_)
      (by simp [graph, hkd]) ?_ hlks heds rfl
    · have hi : t'.kind s = some .dir := by simpa [hkd] using hi
      exact (not_not.1 fun hne => hm ⟨hi, Ne.symm hne⟩)
    · funext j e
      exact propext hdots

theorem Consistent.rename (h : t.Consistent) (hnd : t.kind nd = some .dir) (hlive : t.links nd ≠ 0)
    (hwp : od ≠ nd → t.namesDir od oldname → t.namesDir nd newname → t.links nd ≠ 65535)
    (hc : renameCrossed t od oldname nd newname ancestor slot = .ok t') : t'.Consistent := by
  simp only [renameCrossed, guard_eq_ok, bind_eq_ok, not_or] at hc
  obtain ⟨-, ⟨hon, hnn⟩, -, s, hs, ⟨⟩, hchk, hc⟩ := hc
  have hon : isDots oldname = false := by simpa using hon
  have hnn : isDots newname = false := by simpa using hnn
  generalize hvic : (direntFind t nd newname).map Record.ino = victim at hc hchk
  by_cases hsame : victim = some s
  · rw [if_pos hsame] at hc
    cases hc
    exact h
  rw [if_neg hsame] at hc
  simp only [renameLocked, renameCheck, guard_eq_ok, bind_eq_ok] at hc
  obtain ⟨⟨⟩, ⟨-, ⟨⟩, hold, ⟨⟩, hfd, hmax, -⟩, t2, hrec, ⟨⟩⟩ := hc
  have hold := findEntryLocked_eq_ok h.tidy hold
  obtain ⟨hty, hkd, hlks, hdots, E, hE, heds⟩ :=
    renameRecords_spec h.tidy hnd hold hon hnn hvic hsame hrec
  have hmax : t.kind s = some .dir → od ≠ nd → t.links nd + 1 < 2 ^ 16 := by
    intro hs hne
    have hwidth := h.tidy.width nd
    cases hv : victim.any fun v => t.kind v = some .dir with
    | false =>
      have hlt : t.links nd < LINK_MAX := by simpa [hs, hne, hv] using hmax
      exact Nat.lt_trans (Nat.succ_lt_succ hlt) (by decide)
    | true =>
      have hod : t.namesDir od oldname := by
        simp [namesDir, h.tidy.direntFind.2 ⟨hold, rfl⟩, hs]
      have hnd : t.namesDir nd newname := by
        rw [← hvic] at hv
        cases hr : direntFind t nd newname with
        | none => simp [hr] at hv
        | some r => simpa [namesDir, hr] using hv
      have := hwp hne hod hnd
      omega
  obtain ⟨t3, hmv⟩ : ∃ t3, moveDotdot t2 od s nd = t3 := ⟨_, rfl⟩
  have hlkd := h.move hnd hlive hmax hty hkd hlks hdots heds hmv
  obtain ⟨htidy3, hkind3, hedges3, hrecords3, hmvd⟩ := moveDotdot_spec hty
    (by simpa [hkd, hlks] using hmax) hmv
  have hfree3 : ∀ {j}, t.kind j = none → t3.links j = 0 := by
    intro j hj
    have hjn : j ≠ nd := fun hjn => by simp [hjn, hnd] at hj
    have hjo : j ≠ od := fun hjo => by simp [hjo, h.tidy.isDir hold] at hj
    split at hmvd
    · simp [hmvd.2, hjn, hjo, hlks, h.free hj]
    · simp [hmvd, hlks, h.free hj]
  have hroot3 : ⟨DOTDOT, ROOT_INO⟩ ∈ t3.records ROOT_INO := by
    have hne : ROOT_INO ≠ s := by
      rintro rfl
      exact (LinkGraph.refs_pos
        (h.tidy.mem_edges.2 ⟨_, hold, hon, rfl⟩)).ne' h.linked.root_refs
    rw [hrecords3 _ hne]
    exact hdots.2 h.root
  have hsame3 : t3.kind = t.kind := hkind3.trans hkd
  cases victim with
  | none =>
    rw [renameLinks, hmv]
    refine ⟨htidy3, fun hj => hfree3 (by rwa [hsame3] at hj), ?_, hroot3⟩
    have heq : t3.edges = (nd, s) ::ₘ (victimEdges nd none + E) := by
      simp [hedges3, hE, victimEdges]
    simp only [← heq] at hlkd
    exact hlkd
  | some v =>
    rw [renameLinks, hmv]
    obtain ⟨htidy', hkd', hrecords', heds', hlk'⟩ := uncountTarget_spec htidy3 rfl
    refine ⟨htidy', fun {j} hj => ?_, ?_, hrecords' ▸ hroot3⟩
    · rw [hlk']
      exact Nat.eq_zero_of_le_zero (hfree3 (by rwa [hkd', hsame3] at hj) ▸ dropped_le)
    refine linked_drop hlkd rfl rfl (fun hv j => ?_) (by simp [graph, hkd'])
      (by simp [graph, hrecords']) ?_ hlk'
    · have hv : t.kind v = some .dir := by rwa [hsame3] at hv
      simp only [findVictim, bind_eq_ok, checkVictim, if_pos hv] at hfd
      obtain ⟨⟨⟩, hent, hemp⟩ := hfd
      have hnv : (nd, v) ∈ t.edges :=
        h.tidy.mem_edges.2 ⟨_, findEntryLocked_eq_ok h.tidy hent, hnn, rfl⟩
      have hne : v ≠ nd := by
        rintro rfl
        exact h.tidy.not_mem_edges hemp hnv
      have hnot := h.tidy.not_mem_edges (i := j) hemp
      rw [heds] at hnot
      simp only [mem_cons, not_or, Prod.mk.injEq, hne, false_and, false_or] at hnot ⊢
      exact hnot.2
    · simp [heds', hedges3, hE, victimEdges, cons_swap]

theorem Consistent.release (h : t.Consistent) (hc : Ext2.release t i = .ok t') :
    t'.Consistent := by
  simp only [Ext2.release, guard_eq_ok, not_not, Except.ok.injEq] at hc
  obtain ⟨hi, rfl⟩ := hc
  have hrt : ROOT_INO ≠ i := fun hr => h.linked.root_live (hr ▸ hi)
  have heds : ((t.setKind i none).setRecords i []).edges = t.edges := by
    refine Finset.sum_congr rfl fun d _ => ?_
    by_cases hdi : d = i
    · subst hdi
      rw [setRecords_records, if_pos rfl]
      refine (eq_zero_of_forall_notMem fun e he => ?_).symm
      obtain ⟨r, hr, hn, rfl⟩ := mem_edgesOf.1 he
      exact (h.linked.held (h.tidy.mem_edges.2 ⟨r, hr, hn, rfl⟩)).1 hi
    · simp [hdi]
  refine ⟨h.tidy.of_at (i := i) rfl (by simp +contextual) (by simp) (by simp) (by simp) (by simp)
    (h.tidy.width i), fun {j} hj => ?_, ?_, by simpa [hrt] using h.root⟩
  · by_cases hji : j = i
    · exact hji ▸ hi
    · exact h.free (by simpa [hji] using hj)
  · exact h.linked.set_inner hi (fun j hji => by simp [hji]) (fun {j e} hji he => by
      simpa [hji] using he) heds rfl

/-! ## Runs -/

/-- The directory that gains an entry has not been removed, and a directory that moves there over
another one finds room in the count. -/
def Living (t : Tree) : Change → Prop
  | .create node .. | .symlink node .. => t.links node ≠ 0
  | .link node .. => t.kind node = some .dir ∧ t.links node ≠ 0
  | .rename olddir oldname newdir newname _ _ =>
    t.kind newdir = some .dir ∧ t.links newdir ≠ 0 ∧
      (olddir ≠ newdir → t.namesDir olddir oldname → t.namesDir newdir newname →
        t.links newdir ≠ 65535)
  | .unlink .. | .release _ => True

instance (t : Tree) (c : Change) : Decidable (t.Living c) := by
  cases c <;> unfold Living <;> infer_instance

/-- The relation of the changes that succeed. -/
def Changes : Tree → Change → Tree → Prop := Advances fun t c => (t.change c).toOption

theorem Consistent.change (h : t.Consistent) (hs : Under Living Changes t c t') :
    t'.Consistent := by
  obtain ⟨hlive, hc⟩ := hs
  have hc : t.change c = .ok t' := by
    cases hr : t.change c with
    | error e => simp [Changes, Advances, hr, Except.toOption] at hc
    | ok t1 => simpa [Changes, Advances, hr, Except.toOption] using hc
  cases c with
  | create node name type ino slot =>
    simp only [Tree.change, createCrossed, guard_eq_ok] at hc
    exact h.create hlive hc.2
  | symlink node name ino slot =>
    simp only [Tree.change, symlinkCrossed, bind_eq_ok] at hc
    obtain ⟨⟨⟩, -, hc⟩ := hc
    exact h.create hlive hc
  | link node name target slot => exact h.link hlive.1 hlive.2 hc
  | unlink node name directory =>
    simp only [Tree.change, unlinkCrossed, guard_eq_ok, bind_eq_ok] at hc
    obtain ⟨-, hnm, v, -, -, -, -, hc⟩ := hc
    exact h.unlink (by simpa using hnm) hc
  | rename olddir oldname newdir newname ancestor slot =>
    exact h.rename hlive.1 hlive.2.1 hlive.2.2 hc
  | release i => exact h.release hc

/-- What the counts and the `".."` records of a volume have to say. -/
structure LinkCountsRight (t : Tree) : Prop where
  file : ∀ {i k}, t.kind i = some k → k ≠ .dir → t.links i = t.refs i
  dir : ∀ {i}, t.kind i = some .dir → t.links i ≠ 0 → t.links i = 2 + t.subdirs i
  dotdot : ∀ {i}, t.kind i = some .dir → t.links i ≠ 0 → i ≠ ROOT_INO →
    ∃ d, direntFind t i DOTDOT = some ⟨DOTDOT, d⟩ ∧ (d, i) ∈ t.edges ∧
      ∀ d', (d', i) ∈ t.edges → d' = d
  root : direntFind t ROOT_INO DOTDOT = some ⟨DOTDOT, ROOT_INO⟩

theorem Consistent.linkCountsRight (h : t.Consistent) : t.LinkCountsRight := by
  refine ⟨fun {i k} hk hne => ?_, fun {i} hk hl => ?_, fun {i} hk hl hr => ?_,
    h.tidy.direntFind.2 ⟨h.root, rfl⟩⟩
  · exact h.linked.leaf (by simp [hk, hne])
  · have hsub : t.subdirs i = t.graph.below i := by
      refine countP_congr rfl fun e he => ?_
      have hlive : t.links e.2 ≠ 0 := (h.linked.held he).2
      simp [hlive]
    rw [hsub]
    exact h.linked.node (by simp [hk]) hl
  · have hone := h.linked.once (by simp [hk]) hl hr
    obtain ⟨⟨d, j⟩, hd, hj⟩ := countP_pos.1 (hone ▸ Nat.one_pos)
    obtain rfl : j = i := hj
    have hup : ∀ {d}, (d, j) ∈ t.edges → direntFind t j DOTDOT = some ⟨DOTDOT, d⟩ :=
      fun he => h.tidy.direntFind.2 ⟨h.linked.above he (by simp [hk]), rfl⟩
    refine ⟨d, hup hd, hd, fun d' hd' => ?_⟩
    have := (hup hd').symm.trans (hup hd)
    simpa using this

/-- **Link counts follow the tree.** From a consistent volume, along every run of successful calls
that add no entry to a removed directory, the counts and the `".."` records stay right. -/
theorem links_follow_tree {cs : List Change} (h : t.Consistent)
    (hrun : Run (Under Living Changes) t cs t') : t'.Consistent ∧ t'.LinkCountsRight := by
  have h' : t'.Consistent := hrun.invariant (fun h hs => h.change hs) h
  exact ⟨h', h'.linkCountsRight⟩

/-- A new volume: the root directory and nothing else. -/
def rootOnly (size : Nat) : Tree where
  size
  readonly := false
  kind i := if i = ROOT_INO then some .dir else none
  links i := if i = ROOT_INO then 2 else 0
  records i := if i = ROOT_INO then [⟨DOT, ROOT_INO⟩, ⟨DOTDOT, ROOT_INO⟩] else []
  mounted _ := false

theorem edges_rootOnly : (rootOnly n).edges = 0 := by
  refine Finset.sum_eq_zero fun d _ => ?_
  by_cases hd : d = ROOT_INO
  · subst hd
    rfl
  · simp [rootOnly, hd, edgesOf]

theorem rootOnly_consistent (hn : ROOT_INO ≤ n) : (rootOnly n).Consistent := by
  have hty : (rootOnly n).Tidy := by
    constructor <;> grind [rootOnly]
  refine ⟨hty, by simp [rootOnly], ?_, by simp [rootOnly]⟩
  have hrf : ∀ i, (rootOnly n).graph.refs i = 0 := fun i => by
    simp [LinkGraph.refs, edges_rootOnly]
  have hblw : ∀ i, (rootOnly n).graph.below i = 0 := fun i => by
    simp [LinkGraph.below, edges_rootOnly]
  refine ⟨by simp [edges_rootOnly], by simp [edges_rootOnly], fun {i} hi => ?_,
    fun {i} hi _ => ?_, fun {i} hi _ hne => ?_, by simp [edges_rootOnly], by simp [rootOnly],
    by simp [rootOnly], hrf _⟩
  · rw [hrf]
    exact ite_eq_right_iff.2 fun h => by simp [h, rootOnly] at hi
  · have hi : i = ROOT_INO := by simpa [rootOnly] using hi
    rw [hblw, hi]
    rfl
  · exact absurd (by simpa [rootOnly] using hi) hne

/-- `mkdir a`, `creat a/f`, `link a/f b`, `mkdir c`, `rename a c/a`, `unlink b`. -/
def tidyRun : List Change :=
  [.create 2 [97] .dir 3 (some 2), .create 3 [102] .file 4 (some 2), .link 2 [98] 4 (some 0),
    .create 2 [99] .dir 5 (some 1), .rename 2 [97] 5 [97] false (some 2), .unlink 2 [98] false]

theorem links_follow_tree_tidyRun :
    ∃ t', Run (Under Living Changes) (rootOnly 8) tidyRun t' ∧ t'.LinkCountsRight := by
  obtain ⟨t', hrun, -⟩ : ∃ t', Run (Under Living Changes) (rootOnly 8) tidyRun t' ∧ True :=
    Run.exists_of_any Run.of_foldlM_under (by decide +kernel)
  exact ⟨t', hrun, (links_follow_tree (rootOnly_consistent (by decide)) hrun).2⟩

/-- `mkdir d`, `rmdir d` while it is open, `mkdir x` in what is left of it. -/
def removedRun : List Change :=
  [.create 2 [100] .dir 3 (some 2), .unlink 2 [100] true, .create 3 [120] .dir 4 (some 2)]

/-- A removed directory that gains a subdirectory counts as live again, with a count of one. -/
theorem removed_dir_counts_again :
    (rootOnly 8).Consistent ∧ ∃ t', Run Changes (rootOnly 8) removedRun t' ∧
      t'.kind 3 = some .dir ∧ t'.links 3 = 1 ∧ t'.subdirs 3 = 1 ∧ ¬t'.LinkCountsRight := by
  refine ⟨rootOnly_consistent (by decide), Run.exists_and₃ (Run.exists_of_any Run.of_foldlM
    (by decide +kernel)) fun t' _ hkind hlinks hsub h => ?_⟩
  have := h.dir hkind (by simp [hlinks])
  rw [hlinks, hsub] at this
  exact absurd this (by decide)

end Tree
end Vex.Fs.Ext2
