import Vex.Fs.Path
import Mathlib.Logic.Relation
import Mathlib.Tactic.Conv
import Mathlib.Tactic.Tauto

/-! What resolving a path is meant to do, one component at a time: a walker stands at a vnode
with the texts still to be read in front of it; a component moves it, and a symbolic link puts its
own text before the rest. `resolve_internal` and `follow_symlink` get there by mutual recursion
instead; they agree with the walker, except that they never look at what a final separator
follows. -/

namespace Vex.Fs

open List

/-- The pieces of a path between its separators, empty ones left out. -/
def components (path : Name) : List Name := (path.splitOn SLASH).filter (· ≠ [])

/-- The path ends in a separator. -/
def trailing (path : Name) : Bool := path.getLast? == some SLASH

/-- A text to be read: its components, whether a separator follows them, and how long a chain of
links it is part of. -/
structure Text where
  names : List Name
  slash : Bool
  links : Nat
  deriving DecidableEq, Repr

def Text.of (path : Name) (links : Nat) : Text := ⟨components path, trailing path, links⟩

/-- Nothing is left to read in any of the texts. -/
def allRead (texts : List Text) : Bool := texts.all fun x => x.names.isEmpty && !x.slash

/-- The walker: where it stands, whether a separator was read since the last component, and the
texts to be read, the innermost link's first. -/
structure Walk where
  node : Nat
  slash : Bool
  texts : List Text
  deriving DecidableEq, Repr

/-- The end of a walk: an error, or a vnode and whether a separator came last. -/
abbrev Arrival := Except Errno (Nat × Bool)

namespace Tree

variable (t : Tree) (cred : Credentials) (nofollow : Bool)

/-- `dir` is the root of a file system that covers `m`. -/
def Covers (dir m : Nat) : Prop := t.coveredBy dir = some m

/-- `up` is the parent of `dir`: of the directory at the bottom of the mounts `dir` is on, or
that directory itself where it has none. -/
def IsUp (dir up : Nat) : Prop :=
  ∃ bottom, Relation.ReflTransGen t.Covers dir bottom ∧ (∀ m, ¬t.Covers bottom m) ∧
    up = (t.parent bottom).getD bottom

/-- A component can be looked for in `node`. -/
def searchable (node : Nat) (name : Name) : Except Errno Unit :=
  if NAME_MAX < name.length then .error .ENOTDIR
  else if t.type node ≠ .directory then .error .ENOTDIR
  else t.vnodeAccess cred node X_OK

/-- The text of a link. -/
def linkText (link : Nat) : Except Errno Name :=
  match t.readlink link PATH_MAX with
  | .error e => .error e
  | .ok target =>
    if PATH_MAX < target.length then .error .ENAMETOOLONG else .ok (target.takeWhile (· != 0))

/-- The root, where an absolute path starts. -/
def rootBase : Except Errno Nat :=
  match t.vfsGetRoot with
  | none => .error .ENOENT
  | some root => .ok root

/-- Where a text is read from, for a walker at `node`. -/
def textBase (node : Nat) (text : Name) : Except Errno Nat :=
  if text.head? = some SLASH then t.rootBase else .ok node

/-- The text of `link`, met at `node` with `x` and `xs` still to be read, is put before them. A
link may have `MAX_SYMLINK_DEPTH` links before it in its chain: those whose texts it is in, and
those read before it in the same text. -/
def expand (node link : Nat) (x : Text) (xs : List Text) : Walk ⊕ Arrival :=
  if MAX_SYMLINK_DEPTH < x.links then .inr (.error .ELOOP)
  else match t.linkText link with
    | .error e => .inr (.error e)
    | .ok text =>
      match t.textBase node text with
      | .error e => .inr (.error e)
      | .ok base =>
        .inl ⟨base, false, Text.of text (x.links + 1) :: { x with links := x.links + 1 } :: xs⟩

/-- One step of the walker; `up` is what `..` leads to. -/
def next (up : Nat → Nat) (w : Walk) : Walk ⊕ Arrival :=
  match w.texts with
  | [] => .inr (.ok (w.node, w.slash))
  | ⟨[], slash, _⟩ :: xs => .inl ⟨w.node, w.slash || slash, xs⟩
  | ⟨name :: names, slash, links⟩ :: xs =>
    let x : Text := ⟨names, slash, links⟩
    match t.searchable cred w.node name with
    | .error e => .inr (.error e)
    | .ok () =>
      if name = DOT then .inl ⟨w.node, false, x :: xs⟩
      else if name = DOTDOT then .inl ⟨up w.node, false, x :: xs⟩
      else match t.vnodeLookup w.node name with
        | .error e => .inr (.error e)
        | .ok child =>
          if t.type child = .symLink ∧ ¬(nofollow ∧ allRead (x :: xs)) then
            t.expand w.node child x xs
          else .inl ⟨child, false, x :: xs⟩

/-- The walker's steps end in `r`. -/
inductive Gives (up : Nat → Nat) : Walk ⊕ Arrival → Arrival → Prop
  | stop : Gives up (.inr r) r
  | step : Gives up (t.next cred nofollow up w) r → Gives up (.inl w) r

/-- A path that ends in a separator leads to a directory only. -/
def settle : Arrival → Except Errno Nat
  | .error e => .error e
  | .ok (node, slash) =>
    if slash ∧ t.type node ≠ .directory then .error .ENOTDIR else .ok node

/-- The walker at the start of a path. -/
def start (baseDir : Option Nat) (path : Name) : Walk ⊕ Arrival :=
  if path = [] then .inr (.error .ENOENT)
  else match baseDir.elim t.rootBase (t.textBase · path) with
    | .error e => .inr (.error e)
    | .ok base => .inl ⟨base, false, [Text.of path 0]⟩

/-- Resolving the path leads the walker to `r`, apart from what a final separator asks for. -/
def Arrives (baseDir : Option Nat) (path : Name) (flags : BitVec 32) (r : Arrival) : Prop :=
  ∃ up, (∀ dir, t.IsUp dir (up dir)) ∧
    t.Gives cred (flags &&& PATH_NOFOLLOW ≠ 0) up (t.start baseDir path) r

/-- **The reference.** The result of resolving a path. -/
def Resolves (baseDir : Option Nat) (path : Name) (flags : BitVec 32) (r : Except Errno Nat) :
    Prop :=
  ∃ arrival, t.Arrives cred baseDir path flags arrival ∧ r = t.settle arrival

end Tree

/-! ## Components -/

@[simp] theorem components_nil : components [] = [] := rfl

theorem components_slash (path : Name) : components (SLASH :: path) = components path := by
  have h : (SLASH :: path).splitOn SLASH = [] :: path.splitOn SLASH :=
    splitOnP_append_cons_of_forall_mem (forall_mem_nil _) SLASH (by rfl) path
  simp [components, h]

theorem components_skipSeparators (path : Name) :
    components (skipSeparators path) = components path := by
  induction path with
  | nil => rfl
  | cons c cs ih =>
    by_cases hc : c = SLASH
    · subst hc
      rw [components_slash, ← ih]
      simp [skipSeparators]
    · rw [skipSeparators, dropWhile_cons_of_neg (by simpa using hc)]

theorem forall_mem_component (path : Name) : ∀ b ∈ component path, (b == SLASH) = false := by
  intro b hb
  simpa using mem_takeWhile_imp hb

theorem component_append_afterComponent (path : Name) :
    component path ++ afterComponent path = path := takeWhile_append_dropWhile

variable {c : UInt8} {cs : Name}

theorem afterComponent_head (h : afterComponent path = c :: cs) : c = SLASH := by
  have hc := head?_dropWhile_not (· != SLASH) path
  rw [← afterComponent, h] at hc
  simpa using hc

theorem components_of_skip (h : skipSeparators path = c :: cs) :
    components path = component (c :: cs) :: components (afterComponent (c :: cs)) := by
  have hne : component (c :: cs) ≠ [] := by
    simp [component, head_skipSeparators h]
  rw [← components_skipSeparators, h]
  generalize c :: cs = text at hne ⊢
  have htx := component_append_afterComponent text
  have hcomp := forall_mem_component text
  cases hrs : afterComponent text with
  | nil =>
    rw [hrs, append_nil] at htx
    have hspl : text.splitOn SLASH = [text] := splitOnP_eq_singleton (htx ▸ hcomp)
    rw [htx] at hne ⊢
    simp [components, hspl, hne]
  | cons s rest =>
    obtain rfl := afterComponent_head hrs
    rw [hrs] at htx
    have hspl : text.splitOn SLASH = component text :: rest.splitOn SLASH := by
      have := splitOnP_append_cons_of_forall_mem hcomp SLASH (by rfl) rest
      rwa [htx] at this
    rw [components_slash]
    simp [components, hspl, hne]

theorem skipSeparators_skipSeparators (path : Name) :
    skipSeparators (skipSeparators path) = skipSeparators path := by
  cases h : skipSeparators path with
  | nil => rfl
  | cons c cs => exact dropWhile_cons_of_neg (by simpa using head_skipSeparators h)

theorem components_eq_nil_of_skip (h : skipSeparators path = []) : components path = [] := by
  rw [← components_skipSeparators, h, components_nil]

theorem trailing_append (h : q ≠ []) : trailing (p ++ q) = trailing q := by
  simp [trailing, h]

theorem trailing_of_skip (h : skipSeparators path = c :: cs) :
    trailing path = trailing (c :: cs) := by
  have hp : path = path.takeWhile (· == SLASH) ++ (c :: cs) := by
    rw [← h, skipSeparators, takeWhile_append_dropWhile]
  rw [hp, trailing_append (by simp)]

theorem trailing_afterComponent (h : skipSeparators path = c :: cs) :
    trailing path = trailing (afterComponent (c :: cs)) := by
  have htx := component_append_afterComponent (c :: cs)
  rw [trailing_of_skip h]
  cases hrs : afterComponent (c :: cs) with
  | nil =>
    rw [hrs, append_nil] at htx
    have hcomp := forall_mem_component (c :: cs)
    rw [htx] at hcomp
    simpa [trailing] using fun hlast => by simpa using hcomp SLASH (mem_of_getLast? hlast)
  | cons s rest => rw [← htx, hrs, trailing_append (by simp)]

theorem Text.of_eq (h : skipSeparators path = c :: cs) (links : Nat) :
    Text.of path links =
      ⟨component (c :: cs) :: components (afterComponent (c :: cs)),
        trailing (afterComponent (c :: cs)), links⟩ := by
  rw [Text.of, components_of_skip h, trailing_afterComponent h]

theorem allRead_cons_of : allRead (Text.of path links :: xs) ↔ path = [] ∧ allRead xs := by
  have hrd : (components path = [] ∧ trailing path = false) ↔ path = [] := by
    constructor
    · rintro ⟨hnms, hsl⟩
      cases hsk : skipSeparators path with
      | cons c cs => rw [components_of_skip hsk] at hnms; cases hnms
      | nil =>
        -- only separators, so the last of them would be at the end
        refine getLast?_eq_none_iff.mp (Option.eq_none_iff_forall_not_mem.mpr fun b hb => ?_)
        have hb' : b = SLASH := by
          simpa using dropWhile_eq_nil_iff.mp hsk b (mem_of_getLast? hb)
        simp [trailing, Option.mem_def.mp hb, hb'] at hsl
    · rintro rfl
      exact ⟨rfl, rfl⟩
  simp only [allRead, Text.of, all_cons, Bool.and_eq_true, List.isEmpty_iff,
    Bool.not_eq_true', hrd]

/-! ## The way up -/

namespace Tree

variable {t : Tree} {cred : Credentials} {nofollow : Bool} {up : Nat → Nat}

theorem climb_of_covers (h : t.Covers dir m) : t.climb dir = t.climb m := by
  rw [climb]
  split
  case h_1 m' hm =>
    rw [Covers, hm, Option.some.injEq] at h
    rw [h]
  case h_2 hm => simp [Covers, hm] at h

theorem climb_of_bottom (h : ∀ m, ¬t.Covers dir m) : t.climb dir = dir := by
  rw [climb]
  split
  case h_1 m hm => exact absurd hm (h m)
  case h_2 => rfl

theorem climb_spec (dir : Nat) :
    Relation.ReflTransGen t.Covers dir (t.climb dir) ∧ ∀ m, ¬t.Covers (t.climb dir) m := by
  induction dir using Tree.climb.induct t with
  | case1 dir m hm ih =>
    rw [climb_of_covers hm]
    exact ⟨.head hm ih.1, ih.2⟩
  | case2 dir hm =>
    have hbot : ∀ m, ¬t.Covers dir m := fun m h => by simp [Covers, hm] at h
    rw [climb_of_bottom hbot]
    exact ⟨.refl, hbot⟩

theorem climb_unique (h : Relation.ReflTransGen t.Covers dir bottom)
    (hbot : ∀ m, ¬t.Covers bottom m) : t.climb dir = bottom := by
  induction h using Relation.ReflTransGen.head_induction_on with
  | refl => exact climb_of_bottom hbot
  | head hm _ ih => rw [climb_of_covers hm, ih]

theorem isUp_iff {up : Nat} : t.IsUp dir up ↔ up = t.parentOf dir := by
  constructor
  · rintro ⟨bottom, hclimb, hbot, rfl⟩
    rw [parentOf, climb_unique hclimb hbot]
  · rintro rfl
    exact ⟨t.climb dir, (climb_spec dir).1, (climb_spec dir).2, rfl⟩

/-! ## The walker and the recursion -/

theorem Gives.unique (h : t.Gives cred nofollow up s r)
    (h' : t.Gives cred nofollow up s r') : r = r' := by
  induction h with
  | stop => cases h'; rfl
  | step _ ih =>
    cases h' with
    | step h' => exact ih h'

variable (t cred nofollow) in
/-- `r` is what the recursion has to return for the walker to come through the texts before `xs`:
the walker fails where it does, and goes on from the vnode it returns. -/
def Leads (s : Walk ⊕ Arrival) (xs : List Text) : Except Errno Nat → Prop
  | .error e => t.Gives cred nofollow t.parentOf s (.error e)
  | .ok node => ∃ slash, ∀ r, t.Gives cred nofollow t.parentOf (.inl ⟨node, slash, xs⟩) r →
      t.Gives cred nofollow t.parentOf s r

variable {xs : List Text} {r : Except Errno Nat}

theorem Leads.step
    (h : t.Leads cred nofollow (t.next cred nofollow t.parentOf w) xs r) :
    t.Leads cred nofollow (.inl w) xs r := by
  cases r with
  | error e => exact Gives.step h
  | ok node =>
    obtain ⟨slash, h⟩ := h
    exact ⟨slash, fun r hr => Gives.step (h r hr)⟩

theorem Leads.trans (h : t.Leads cred nofollow s ys (.ok node))
    (h' : ∀ slash, t.Leads cred nofollow (.inl ⟨node, slash, ys⟩) xs r) :
    t.Leads cred nofollow s xs r := by
  obtain ⟨slash, h⟩ := h
  cases r with
  | error e => exact h _ (h' slash)
  | ok node' =>
    obtain ⟨slash', h'⟩ := h' slash
    exact ⟨slash', fun r hr => h r (h' r hr)⟩

variable {follow : Nat → Nat → Name → BitVec 32 → Except Errno Nat} {current : Nat}

theorem resolveLoop_nil (h : skipSeparators path = []) :
    t.resolveLoop cred follow flags current path = .ok current := by
  rw [resolveLoop]
  split
  case h_1 => rfl
  case h_2 h' => rw [h] at h'; cases h'

theorem resolveLoop_cons (h : skipSeparators path = c :: cs) :
    t.resolveLoop cred follow flags current path =
      (do
        t.searchable cred current (component (c :: cs))
        if component (c :: cs) = DOT then
          t.resolveLoop cred follow flags current (afterComponent (c :: cs))
        else if component (c :: cs) = DOTDOT then
          t.resolveLoop cred follow flags (t.parentOf current) (afterComponent (c :: cs))
        else
          let next ← t.vnodeLookup current (component (c :: cs))
          if t.type next = .symLink ∧
              (afterComponent (c :: cs) ≠ [] ∨ flags &&& PATH_NOFOLLOW = 0) then
            follow current next (afterComponent (c :: cs)) flags
          else t.resolveLoop cred follow flags next (afterComponent (c :: cs))) := by
  conv_lhs => rw [resolveLoop]
  split
  case h_1 h' => rw [h] at h'; cases h'
  rename_i c' cs' h'
  rw [h] at h'
  obtain ⟨rfl, rfl⟩ := h'
  simp only [searchable]
  split
  · rfl
  split
  · rfl
  cases t.vnodeAccess cred current X_OK with
  | error e => rfl
  | ok => cases t.vnodeLookup current (component (c :: cs)) <;> rfl

variable {links : Nat}

theorem next_of (h : skipSeparators path = c :: cs) :
    t.next cred nofollow up ⟨node, slash, Text.of path links :: xs⟩ =
      let x := Text.of (afterComponent (c :: cs)) links
      match t.searchable cred node (component (c :: cs)) with
      | .error e => .inr (.error e)
      | .ok () =>
        if component (c :: cs) = DOT then .inl ⟨node, false, x :: xs⟩
        else if component (c :: cs) = DOTDOT then .inl ⟨up node, false, x :: xs⟩
        else match t.vnodeLookup node (component (c :: cs)) with
          | .error e => .inr (.error e)
          | .ok child =>
            if t.type child = .symLink ∧ ¬(nofollow ∧ allRead (x :: xs)) then
              t.expand node child x xs
            else .inl ⟨child, false, x :: xs⟩ := by
  rw [Text.of_eq h]
  rfl

theorem resolveLoop_leads (hflg : flags &&& PATH_NOFOLLOW ≠ 0 ↔ nofollow ∧ allRead xs)
    (hfol : ∀ node link rest, (rest ≠ [] ∨ flags &&& PATH_NOFOLLOW = 0) →
      t.Leads cred nofollow (t.expand node link (Text.of rest links) xs) xs
        (follow node link rest flags)) (current : Nat) (path : Name) (slash : Bool) :
    t.Leads cred nofollow (.inl ⟨current, slash, Text.of path links :: xs⟩) xs
      (t.resolveLoop cred follow flags current path) := by
  induction hn : path.length using Nat.strong_induction_on generalizing current path slash with
  | _ n ih =>
    refine Leads.step ?_
    cases hsk : skipSeparators path with
    | nil =>
      rw [resolveLoop_nil hsk, Text.of, components_eq_nil_of_skip hsk]
      exact ⟨slash || trailing path, fun r hr => hr⟩
    | cons c cs =>
      have hrs := fun node slash =>
        ih _ (hn ▸ afterComponent_length_lt hsk) node (afterComponent (c :: cs)) slash rfl
      rw [resolveLoop_cons hsk, next_of hsk]
      cases t.searchable cred current (component (c :: cs)) with
      | error e => exact Gives.stop
      | ok =>
        rw [ok_bind]
        by_cases hdot : component (c :: cs) = DOT
        · simp only [hdot]
          exact hrs current false
        by_cases hdd : component (c :: cs) = DOTDOT
        · simp only [hdd]
          exact hrs (t.parentOf current) false
        simp only [if_neg hdot, if_neg hdd]
        cases t.vnodeLookup current (component (c :: cs)) with
        | error e => exact Gives.stop
        | ok child =>
          have hlast : ¬(nofollow ∧ allRead (Text.of (afterComponent (c :: cs)) links :: xs)) ↔
              afterComponent (c :: cs) ≠ [] ∨ flags &&& PATH_NOFOLLOW = 0 := by
            rw [allRead_cons_of]
            tauto
          simp only [hlast, ok_bind]
          by_cases hlk : t.type child = .symLink ∧
              (afterComponent (c :: cs) ≠ [] ∨ flags &&& PATH_NOFOLLOW = 0)
          · rw [if_pos hlk, if_pos hlk]
            exact hfol current child _ hlk.2
          · rw [if_neg hlk, if_neg hlk]
            exact hrs child false

theorem resolveLoop_congr (h : skipSeparators path = skipSeparators path') :
    t.resolveLoop cred follow flags current path =
      t.resolveLoop cred follow flags current path' := by
  cases hsk : skipSeparators path with
  | nil => rw [resolveLoop_nil hsk, resolveLoop_nil (h ▸ hsk)]
  | cons c cs => exact (resolveLoop_cons hsk).trans (resolveLoop_cons (h ▸ hsk)).symm

theorem resolveInternal_congr (h : skipSeparators path = skipSeparators path') :
    t.resolveInternal cred links base path flags =
      t.resolveInternal cred links base path' flags := by
  cases links with
  | zero => exact resolveLoop_congr h
  | succ links => exact resolveLoop_congr h

/-- A link's text is read from its base, and the rest from where that led. -/
theorem followSymlink_eq (resolve : Nat → Name → BitVec 32 → Except Errno Nat)
    (hrsv : ∀ base path flags, resolve base (SLASH :: path) flags = resolve base path flags)
    (node link : Nat) (rest : Name) (flags : BitVec 32) :
    t.followSymlink resolve node link rest flags =
      (do
        let text ← t.linkText link
        let base ← t.textBase node text
        let resolved ← resolve base text (if rest ≠ [] then 0 else flags)
        if rest ≠ [] then resolve resolved rest flags else .ok resolved) := by
  unfold followSymlink linkText
  cases t.readlink link PATH_MAX with
  | error e => rfl
  | ok target =>
    simp only [bind, Except.bind]
    by_cases hlg : PATH_MAX < target.length
    · simp only [if_pos hlg]
    simp only [if_neg hlg]
    cases target.takeWhile (· != 0) with
    | nil => simp [textBase]
    | cons c path =>
      by_cases hc : c = SLASH
      · subst hc
        simp only [textBase, rootBase, hrsv]
        cases t.vfsGetRoot with
        | none => rfl
        | some root => simp
      · simp [textBase, hc]

theorem resolveInternal_leads (n : Nat) (hn : links + n = MAX_SYMLINK_DEPTH + 1)
    (hflg : flags &&& PATH_NOFOLLOW ≠ 0 ↔ nofollow ∧ allRead xs) (base : Nat) (path : Name)
    (slash : Bool) :
    t.Leads cred nofollow (.inl ⟨base, slash, Text.of path links :: xs⟩) xs
      (t.resolveInternal cred n base path flags) := by
  induction n generalizing flags links xs base path slash with
  | zero =>
    refine resolveLoop_leads hflg (fun node link rest _ => ?_) base path slash
    have hlks : MAX_SYMLINK_DEPTH < (Text.of rest links).links := by
      change MAX_SYMLINK_DEPTH < links
      omega
    rw [expand, if_pos hlks]
    exact Gives.stop
  | succ n ih =>
    refine resolveLoop_leads hflg (fun node link rest _ => ?_) base path slash
    have hlks : ¬MAX_SYMLINK_DEPTH < (Text.of rest links).links := by
      change ¬MAX_SYMLINK_DEPTH < links
      omega
    rw [followSymlink_eq _ (fun _ _ _ => resolveInternal_congr (by simp [skipSeparators])),
      expand, if_neg hlks]
    cases t.linkText link with
    | error e => exact Gives.stop
    | ok text =>
      cases htx : t.textBase node text with
      | error e =>
        simp only [ok_bind, htx]
        exact Gives.stop
      | ok base =>
        -- the link's text is read one link deeper, with the rest as the text after it
        have htgt : ((if rest ≠ [] then 0 else flags) &&& PATH_NOFOLLOW ≠ 0 ↔
            nofollow ∧ allRead (Text.of rest (links + 1) :: xs)) := by
          rw [allRead_cons_of]
          by_cases hrs : rest = []
          · simpa [hrs] using hflg
          · simp [hrs]
        have hled := ih (by omega : links + 1 + n = MAX_SYMLINK_DEPTH + 1) htgt base text false
        simp only [htx, ok_bind]
        revert hled
        cases t.resolveInternal cred n base text (if rest ≠ [] then 0 else flags) with
        | error e => exact fun hled => hled
        | ok resolved =>
          intro hled
          refine hled.trans fun slash => ?_
          by_cases hrs : rest = []
          · subst hrs
            exact Leads.step ⟨slash || false, fun r hr => hr⟩
          · simpa [hrs, ok_bind] using
              ih (by omega : links + 1 + n = MAX_SYMLINK_DEPTH + 1) hflg resolved rest slash

theorem Leads.arrives (h : t.Leads cred nofollow s [] r) :
    ∃ arrival, t.Gives cred nofollow t.parentOf s arrival ∧ r = arrival.map Prod.fst := by
  cases r with
  | error e => exact ⟨.error e, h, rfl⟩
  | ok node =>
    obtain ⟨slash, h⟩ := h
    exact ⟨.ok (node, slash), h _ (.step .stop), rfl⟩

variable (t cred) in
/-- The recursion takes the walker to its end and returns where it arrives. -/
theorem pathResolveAt_arrives (baseDir : Option Nat) (path : Name) (flags : BitVec 32) :
    ∃ arrival, t.Arrives cred baseDir path flags arrival ∧
      t.pathResolveAt cred baseDir path flags = arrival.map Prod.fst := by
  have hflg : flags &&& PATH_NOFOLLOW ≠ 0 ↔
      decide (flags &&& PATH_NOFOLLOW ≠ 0) = true ∧ allRead [] = true := by simp [allRead]
  have hleads : ∀ base, t.Leads cred (flags &&& PATH_NOFOLLOW ≠ 0)
      (.inl ⟨base, false, [Text.of path 0]⟩) []
      (t.resolveInternal cred (MAX_SYMLINK_DEPTH + 1) base path flags) :=
    fun base => resolveInternal_leads _ (by omega) hflg base path false
  suffices h : ∃ arrival, t.Gives cred (flags &&& PATH_NOFOLLOW ≠ 0) t.parentOf
      (t.start baseDir path) arrival ∧
      t.pathResolveAt cred baseDir path flags = arrival.map Prod.fst by
    obtain ⟨arrival, hgiv, heq⟩ := h
    exact ⟨arrival, ⟨t.parentOf, fun _ => isUp_iff.mpr rfl, hgiv⟩, heq⟩
  cases path with
  | nil => exact ⟨.error .ENOENT, .stop, rfl⟩
  | cons c cs =>
    have hrt : ∃ arrival, t.Gives cred (flags &&& PATH_NOFOLLOW ≠ 0) t.parentOf
        (match t.rootBase with
          | .error e => .inr (.error e)
          | .ok base => .inl ⟨base, false, [Text.of (c :: cs) 0]⟩) arrival ∧
        (match t.vfsGetRoot with
          | none => .error .ENOENT
          | some root => t.resolveInternal cred (MAX_SYMLINK_DEPTH + 1) root
              (skipSeparators (c :: cs)) flags) = arrival.map Prod.fst := by
      unfold rootBase
      cases t.vfsGetRoot with
      | none => exact ⟨.error .ENOENT, .stop, rfl⟩
      | some root =>
        obtain ⟨arrival, hgiv, heq⟩ := (hleads root).arrives
        exact ⟨arrival, hgiv,
          (resolveInternal_congr (skipSeparators_skipSeparators (c :: cs))).trans heq⟩
    cases baseDir with
    | none => exact hrt
    | some base =>
      by_cases hc : c = SLASH
      · subst hc
        exact hrt
      obtain ⟨arrival, hgiv, heq⟩ := (hleads base).arrives
      refine ⟨arrival, ?_, ?_⟩
      · simpa [start, textBase, hc] using hgiv
      · simpa [pathResolveAt, hc] using heq

theorem Arrives.unique {path : Name} {r : Arrival} (h : t.Arrives cred baseDir path flags r)
    (h' : t.Arrives cred baseDir path flags r') : r = r' := by
  obtain ⟨up, hup, h⟩ := h
  obtain ⟨up', hup', h'⟩ := h'
  have heq : up = up' :=
    funext fun dir => (isUp_iff.mp (hup dir)).trans (isUp_iff.mp (hup' dir)).symm
  subst heq
  exact h.unique h'

/-- **Path resolution meets its reference** exactly where the path, its links expanded in place,
does not end in a separator after something that is not a directory: there `path_resolve_at`
returns what it came to, and the reference `-ENOTDIR`. -/
theorem path_resolve_at_meets_reference (t : Tree) (credentials : Credentials)
    (baseDir : Option Nat) (path : Name) (flags : BitVec 32) :
    t.Resolves credentials baseDir path flags (t.pathResolveAt credentials baseDir path flags) ↔
      ∀ node, t.Arrives credentials baseDir path flags (.ok (node, true)) →
        t.type node = .directory := by
  obtain ⟨arrival, harrives, heq⟩ := t.pathResolveAt_arrives credentials baseDir path flags
  rw [heq]
  constructor
  · rintro ⟨arrival', harrives', hsettle⟩ node hnode
    obtain rfl := harrives'.unique hnode
    obtain rfl := harrives.unique hnode
    by_contra hdir
    simp [settle, Except.map, hdir] at hsettle
  · intro hdir
    refine ⟨arrival, harrives, ?_⟩
    rcases arrival with e | ⟨node, _ | _⟩
    · rfl
    · simp [settle, Except.map]
    · simp [settle, Except.map, hdir node harrives]

end Tree

/-- A root directory (vnode 0) with one regular file, `f` (vnode 1). -/
def oneFile : Tree where
  type v := if v = 0 then .directory else .file
  fs v := if v ≤ 1 then some 0 else none
  parent _ := none
  mountedFs _ := none
  entry v name := if v = 0 ∧ name = [102] then .ok 1 else .error .ENOENT
  stat v := .ok { mode := if v = 0 then 0x41ED else 0x81A4, uid := 0, gid := 0, size := 0 }
  readlink _ _ := .error .EINVAL
  vfs _ := { root := 0, mountpoint := none, unmounting := false }
  numFs := 1
  vfsRoot := some 0
  fs_lt v f h := by split at h <;> simp_all
  older f m g h _ := by cases h

/-- `/f/` resolves to the regular file `f`; the reference refuses it. -/
theorem trailing_slash_finds_file :
    oneFile.pathResolveAt kernelCredentials none [47, 102, 47] 0 = .ok 1 ∧
      oneFile.Resolves kernelCredentials none [47, 102, 47] 0 (.error .ENOTDIR) ∧
      ¬oneFile.Resolves kernelCredentials none [47, 102, 47] 0 (.ok 1) := by
  have harrives : oneFile.Arrives kernelCredentials none [47, 102, 47] 0 (.ok (1, true)) :=
    ⟨oneFile.parentOf, fun _ => Tree.isUp_iff.mpr rfl, .step (.step (.step .stop))⟩
  refine ⟨by decide +kernel, ⟨_, harrives, rfl⟩, ?_⟩
  rintro ⟨arrival, h, heq⟩
  obtain rfl := h.unique harrives
  exact absurd heq (by decide +kernel)

end Vex.Fs
