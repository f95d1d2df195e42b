import Vex.Lib.Bytes
import Vex.Mm.Page
import Vex.Proc.Signal

/-! The frame of a signal handler on amd64 (`signal.c` of the architecture, `sys_sigreturn`): where
`arch_signal_setup` puts it, and what is left of the interrupted code when the handler returns. -/

namespace Vex.Proc.SignalFrame

open Lib Mm Signal

abbrev RED_ZONE : Nat := 128
abbrev FPU_STATE_ALIGN : Nat := 64
abbrev SIGFRAME_SIZE : Nat := 288
abbrev UCONTEXT_SIZE : Nat := 240

abbrev UC_FPU : BitVec 64 := 1
abbrev RFLAGS_TF : BitVec 64 := 0x100
abbrev RFLAGS_DF : BitVec 64 := 0x400
abbrev RFLAGS_USER : BitVec 64 := 0x50DD5

/-- The general registers, in the order of `mcontext_t`. -/
inductive Reg
  | rax | rbx | rcx | rdx | rsi | rdi | rbp | rsp | r8 | r9 | r10 | r11 | r12 | r13 | r14 | r15
  deriving DecidableEq

def Reg.all : List Reg :=
  [.rax, .rbx, .rcx, .rdx, .rsi, .rdi, .rbp, .rsp, .r8, .r9, .r10, .r11, .r12, .r13, .r14, .r15]

/-- `hart_context_t`. -/
structure HartContext where
  regs : Reg → BitVec 64
  rip : BitVec 64
  rflags : BitVec 64

def HartContext.sp (ctx : HartContext) : Nat := (ctx.regs .rsp).toNat

/-- What `fpu_init` and the paging mode fix; it panics if the state is larger than a page. -/
structure Machine where
  mode : Nat
  fpuStateSize : Nat
  mxcsrMask : BitVec 32
  xfeatures : BitVec 64
  fits : fpuStateSize ≤ 4096

def Machine.userEnd (m : Machine) : Nat := pmapUserEnd m.mode

/-- User memory, and which ranges of it a copy can read and write. -/
structure UserMemory where
  bytes : Bytes
  canRead : Nat → Nat → Bool
  canWrite : Nat → Nat → Bool

structure AltStack where
  base : BitVec 64
  size : BitVec 64

/-- The fields of `sigaction_t` the setup reads. -/
structure SigAction where
  handler : BitVec 64
  restorer : BitVec 64
  /-- `SA_ONSTACK`. -/
  onStack : Bool

/-- The words of a `siginfo_t`. -/
abbrev SigInfo := Fin 5 → BitVec 64

/-! ## Words in memory -/

/-- The 64-bit words of a record, as bytes. -/
def packed (words : List (BitVec 64)) : Bytes := fun i =>
  digits (words.getD (i / 8) 0).toNat (i % 8)

def word (b : Bytes) (k : Nat) : BitVec 64 := BitVec.ofNat 64 (le 8 b (8 * k))

theorem word_packed (words : List (BitVec 64)) (k : Nat) :
    word (packed words) k = words.getD k 0 := by
  have hle : le 8 (packed words) (8 * k) = le 8 (digits (words.getD k 0).toNat) 0 :=
    le_congr fun i hi => by
      rw [packed, show (8 * k + i) / 8 = k by omega, show (8 * k + i) % 8 = 0 + i by omega]
  have hlt := (words.getD k 0).isLt
  rw [word, hle, le_digits, Nat.pow_zero, Nat.div_one, Nat.mod_eq_of_lt (by omega),
    BitVec.ofNat_toNat, BitVec.setWidth_eq]

/-- The words of a record are found again in the bytes copied from behind its first word. -/
theorem word_copied (hk : k < 30) :
    word (window (blit b o SIGFRAME_SIZE (packed words)) (o + 8) UCONTEXT_SIZE) k =
      words.getD (k + 1) 0 := by
  have hle : le 8 (window (blit b o SIGFRAME_SIZE (packed words)) (o + 8) UCONTEXT_SIZE) (8 * k) =
      le 8 (packed words) (8 * (k + 1)) :=
    le_congr fun i hi => by
      rw [window_of_lt (by simp only [UCONTEXT_SIZE]; omega),
        show o + 8 + (8 * k + i) = o + (8 * (k + 1) + i) by omega,
        blit_of_mem (by simp only [SIGFRAME_SIZE]; omega)]
  rw [word, hle, ← word, word_packed]

/-! ## The calls -/

def userCopyin (m : Machine) (u : UserMemory) (src size : Nat) : Except Errno Bytes :=
  if src < m.userEnd ∧ size ≤ m.userEnd - src ∧ u.canRead src size then
    .ok (window u.bytes src size)
  else .error .EFAULT

def userCopyout (m : Machine) (u : UserMemory) (dst size : Nat) (src : Bytes) :
    Except Errno UserMemory :=
  if dst < m.userEnd ∧ size ≤ m.userEnd - dst ∧ u.canWrite dst size then
    .ok { u with bytes := blit u.bytes dst size src }
  else .error .EFAULT

def fpuStateValid (m : Machine) (image : Bytes) : Bool :=
  BitVec.ofNat 32 (le 4 image 24) &&& ~~~m.mxcsrMask == 0 &&
    (m.xfeatures == 0 || word image 64 &&& ~~~m.xfeatures == 0 &&
      (List.range 7).all fun i => word image (65 + i) == 0)

/-- A difference of `uintptr_t`. -/
def sub (a b : Nat) : Nat := (a + 2 ^ 64 - b) % 2 ^ 64

def onAltstack (t : AltStack) (sp : Nat) : Bool :=
  t.size != 0 && t.base.toNat < sp && sp - t.base.toNat ≤ t.size.toNat

/-- The handler gets the alternate stack, on which the thread is not yet. -/
def Switches (t : AltStack) (action : SigAction) (sp : Nat) : Prop :=
  action.onStack ∧ t.size ≠ 0 ∧ ¬onAltstack t sp

instance : Decidable (Switches t action sp) := inferInstanceAs (Decidable (_ ∧ _ ∧ _))

def stackTop (t : AltStack) (action : SigAction) (sp : Nat) : Nat :=
  if Switches t action sp then (t.base + t.size).toNat else sub sp RED_ZONE

def stackBottom (t : AltStack) (action : SigAction) (sp : Nat) : Nat :=
  if Switches t action sp then t.base.toNat else 0

def fpuUser (m : Machine) (top : Nat) : Nat :=
  sub top m.fpuStateSize / FPU_STATE_ALIGN * FPU_STATE_ALIGN

/-- As if a call had pushed the restorer. -/
def frameSp (m : Machine) (top : Nat) : Nat :=
  sub (sub (fpuUser m top) SIGFRAME_SIZE / 16 * 16) 8

/-- The `ss_flags` of `signal_altstack_get`. -/
def altstackFlags (t : AltStack) (sp : Nat) : BitVec 64 :=
  if t.size = 0 then 2 else if onAltstack t sp then 1 else 0

/-- `sigframe_t`: the restorer, the `ucontext_t` with what `save_mcontext` saves, the
`siginfo_t`. -/
def frameWords (m : Machine) (t : AltStack) (top : Nat) (ctx : HartContext) (action : SigAction)
    (info : SigInfo) (oldMask : SigSet) : List (BitVec 64) :=
  [action.restorer, UC_FPU, 0, t.base, t.size, altstackFlags t ctx.sp, oldMask] ++
    Reg.all.map ctx.regs ++ [ctx.rip, ctx.rflags, BitVec.ofNat 64 (fpuUser m top),
      BitVec.ofNat 64 m.fpuStateSize, 0, 0, 0, 0] ++ List.ofFn info

/-- What the setup writes over the bytes `b`. -/
def written (m : Machine) (t : AltStack) (saved : Bytes) (top sp : Nat) (ctx : HartContext)
    (action : SigAction) (info : SigInfo) (oldMask : SigSet) (b : Bytes) : Bytes :=
  blit (blit b (fpuUser m top) m.fpuStateSize saved) sp SIGFRAME_SIZE
    (packed (frameWords m t top ctx action info oldMask))

/-- The context a handler starts in. -/
def handlerContext (ctx : HartContext) (action : SigAction) (info : SigInfo) (sp : Nat) :
    HartContext :=
  let rflags := ctx.rflags &&& ~~~(RFLAGS_TF ||| RFLAGS_DF)
  { regs
      | .rsp => BitVec.ofNat 64 sp
      | .rdi => ((info 0).setWidth 32).signExtend 64
      | .rsi => BitVec.ofNat 64 (sp + 248)
      | .rdx => BitVec.ofNat 64 (sp + 8)
      | .rax => 0
      -- SYSRETQ takes these two
      | .rcx => action.handler
      | .r11 => rflags
      | r => ctx.regs r
    rip := action.handler
    rflags }

/-- `arch_signal_setup`, with the state `fpu_save` saves. -/
def archSignalSetup (m : Machine) (t : AltStack) (saved : Bytes) (ctx : HartContext)
    (action : SigAction) (info : SigInfo) (oldMask : SigSet) (u : UserMemory) :
    Except Errno (HartContext × UserMemory) :=
  let top := stackTop t action ctx.sp
  let sp := frameSp m top
  if m.userEnd ≤ action.handler.toNat ∨ m.userEnd ≤ action.restorer.toNat then .error .EFAULT
  else if m.userEnd < top ∨ m.userEnd < ctx.sp ∨ top ≤ sp ∨ sp < stackBottom t action ctx.sp then
    .error .EFAULT
  else do
    let u ← userCopyout m u (fpuUser m top) m.fpuStateSize saved
    let u ← userCopyout m u sp SIGFRAME_SIZE
      (packed (frameWords m t top ctx action info oldMask))
    return (handlerContext ctx action info sp, u)

def loadMcontext (ctx : HartContext) (uc : Bytes) : HartContext where
  regs r := word uc (6 + Reg.all.idxOf r)
  rip := word uc 22
  rflags := ctx.rflags &&& ~~~RFLAGS_USER ||| word uc 23 &&& RFLAGS_USER

/-- The part of `arch_signal_return` that loads the state; `page` says whether there is a page for
its image. -/
def loadFpu (m : Machine) (page : Bool) (u : UserMemory) (uc : Bytes) : Except Errno Unit :=
  if word uc 0 &&& UC_FPU = 0 then .ok ()
  else if !page then .error .ENOMEM
  else do
    let image ← userCopyin m u (word uc 24).toNat m.fpuStateSize
    if fpuStateValid m image then .ok () else .error .EFAULT

def archSignalReturn (m : Machine) (page : Bool) (u : UserMemory) (ctx : HartContext) :
    Except Errno (HartContext × SigSet) := do
  let uc ← userCopyin m u ctx.sp UCONTEXT_SIZE
  if m.userEnd ≤ (word uc 22).toNat then .error .EFAULT
  else do
    loadFpu m page u uc
    return (loadMcontext ctx uc, word uc 5)

/-- `sys_sigreturn`: the context and the mask, none if the process is killed. -/
def sysSigreturn (m : Machine) (page : Bool) (u : UserMemory) (ctx : HartContext) :
    Option (HartContext × SigSet) :=
  match archSignalReturn m page u ctx with
  | .error _ => none
  | .ok (ctx, mask) => some (ctx, mask &&& ~~~(sigbit SIGKILL ||| sigbit SIGSTOP))

/-! ## Where the frame lies -/

/-- The frame lies below the red zone, or inside the alternate stack, and below the end of user
space; the handler starts at it. -/
structure Placed (m : Machine) (t : AltStack) (ctx : HartContext) (action : SigAction)
    (top sp : Nat) : Prop where
  frame : sp + SIGFRAME_SIZE ≤ fpuUser m top
  state : fpuUser m top + m.fpuStateSize ≤ top
  user : top ≤ m.userEnd
  redZone : ¬Switches t action ctx.sp → top + RED_ZONE ≤ ctx.sp
  altStack : Switches t action ctx.sp →
    t.base.toNat ≤ sp ∧ top ≤ t.base.toNat + t.size.toNat
  aligned : (sp + 8) % 16 = 0

theorem userEnd_le (m : Machine) : m.userEnd ≤ 2 ^ 56 := by
  unfold Machine.userEnd pmapUserEnd
  rcases pmapDetectLevels_eq m.mode with h | h <;> rw [h] <;> decide

theorem placed (htop : stackTop t action ctx.sp ≤ m.userEnd)
    (hsp : frameSp m (stackTop t action ctx.sp) < stackTop t action ctx.sp)
    (hbot : stackBottom t action ctx.sp ≤ frameSp m (stackTop t action ctx.sp)) :
    Placed m t ctx action (stackTop t action ctx.sp) (frameSp m (stackTop t action ctx.sp)) := by
  have huser := userEnd_le m
  have hfits := m.fits
  -- a difference that wraps is above all of user space
  have hplc : frameSp m (stackTop t action ctx.sp) + SIGFRAME_SIZE ≤
        fpuUser m (stackTop t action ctx.sp) ∧
      fpuUser m (stackTop t action ctx.sp) + m.fpuStateSize ≤ stackTop t action ctx.sp ∧
      (frameSp m (stackTop t action ctx.sp) + 8) % 16 = 0 := by
    generalize stackTop t action ctx.sp = top at *
    simp only [frameSp, fpuUser, sub, FPU_STATE_ALIGN, SIGFRAME_SIZE] at *
    omega
  refine ⟨hplc.1, hplc.2.1, htop, fun hs => ?_, fun hs => ?_, hplc.2.2⟩
  · have hlt : ctx.sp < 2 ^ 64 := BitVec.isLt _
    simp only [stackTop, if_neg hs, sub, RED_ZONE] at htop ⊢
    omega
  · unfold stackBottom at hbot
    rw [if_pos hs] at hbot
    refine ⟨hbot, ?_⟩
    rw [stackTop, if_pos hs]
    exact Nat.mod_le ..

theorem userCopyout_ok (h : userCopyout m u dst size src = .ok u') :
    dst < m.userEnd ∧ u' = { u with bytes := blit u.bytes dst size src } := by
  unfold userCopyout at h
  split at h
  next hok => exact ⟨hok.1, (Except.ok.inj h).symm⟩
  next => cases h

section
variable {m : Machine} {t : AltStack} {ctx ctx' : HartContext} {action : SigAction}
  {u u' : UserMemory}

theorem archSignalSetup_ok
    (h : archSignalSetup m t saved ctx action info oldMask u = .ok (ctx', u')) :
    Placed m t ctx action (stackTop t action ctx.sp) ctx'.sp ∧
      fpuUser m (stackTop t action ctx.sp) < m.userEnd ∧
      u' = ⟨written m t saved (stackTop t action ctx.sp) ctx'.sp ctx action info oldMask u.bytes,
        u.canRead, u.canWrite⟩ := by
  simp only [archSignalSetup, guard_eq_ok, not_or, Nat.not_lt, Nat.not_le] at h
  obtain ⟨-, ⟨htop, -, hsp, hbot⟩, h⟩ := h
  obtain ⟨u1, h1, h⟩ := bind_eq_ok.mp h
  obtain ⟨u2, h2, h⟩ := bind_eq_ok.mp h
  obtain ⟨hlt, rfl⟩ := userCopyout_ok h1
  obtain ⟨-, rfl⟩ := userCopyout_ok h2
  cases h
  have hrsp : (handlerContext ctx action info (frameSp m (stackTop t action ctx.sp))).sp =
      frameSp m (stackTop t action ctx.sp) := by
    have hlt : frameSp m (stackTop t action ctx.sp) < 2 ^ 64 := Nat.mod_lt _ (Nat.two_pow_pos 64)
    rw [HartContext.sp, handlerContext, BitVec.toNat_ofNat, Nat.mod_eq_of_lt hlt]
  rw [hrsp]
  exact ⟨placed htop hsp hbot, hlt, rfl⟩

/-- Loading the flags takes the user's from the frame, and no other. -/
theorem rflags_user (a b : BitVec 64) :
    (a &&& ~~~RFLAGS_USER ||| b &&& RFLAGS_USER) &&& RFLAGS_USER = b &&& RFLAGS_USER ∧
      (a &&& ~~~RFLAGS_USER ||| b &&& RFLAGS_USER) &&& ~~~RFLAGS_USER = a &&& ~~~RFLAGS_USER := by
  generalize RFLAGS_USER = flags
  constructor
  · ext i hi
    cases h : flags[i] <;> simp [h]
  · ext i hi
    cases h : flags[i] <;> simp [h]

theorem archSignalReturn_ok (h : archSignalReturn m page u ctx = .ok (ctx', mask)) :
    ctx'.rip.toNat < m.userEnd ∧
      ctx'.rflags &&& ~~~RFLAGS_USER = ctx.rflags &&& ~~~RFLAGS_USER := by
  obtain ⟨uc, -, h⟩ := bind_eq_ok.mp h
  obtain ⟨hrip, h⟩ := guard_eq_ok.mp h
  obtain ⟨_, -, h⟩ := bind_eq_ok.mp h
  obtain ⟨rfl, rfl⟩ := Prod.mk.inj (Except.ok.inj h)
  rw [Nat.not_le] at hrip
  exact ⟨hrip, (rflags_user ctx.rflags (word uc 23)).2⟩

/-- A return through the frame that was written reads back what was saved in it. -/
theorem sysSigreturn_written (hplc : Placed m t ctx action top sp)
    (hfpu : fpuUser m top < m.userEnd)
    (hu : u.bytes = written m t saved top sp ctx action info oldMask b)
    (hsaved : fpuStateValid m (window saved 0 m.fpuStateSize))
    (hfrm : u.canRead (sp + 8) UCONTEXT_SIZE) (hsta : u.canRead (fpuUser m top) m.fpuStateSize)
    (hrip : ctx.rip.toNat < m.userEnd) (hc : ctx'.sp = sp + 8) :
    ∃ c, sysSigreturn m true u ctx' = some (c, oldMask &&& ~~~(sigbit SIGKILL ||| sigbit SIGSTOP)) ∧
      c.regs = ctx.regs ∧ c.rip = ctx.rip ∧
        c.rflags &&& RFLAGS_USER = ctx.rflags &&& RFLAGS_USER := by
  obtain ⟨hframeLe, hstateLe, huser, -, -, -⟩ := hplc
  have hsz : m.userEnd ≤ 2 ^ 56 := userEnd_le m
  let words := frameWords m t top ctx action info oldMask
  have hword (k : Nat) (hk : k < 30) :
      word (window u.bytes (sp + 8) UCONTEXT_SIZE) k = words.getD (k + 1) 0 := by
    rw [hu, written, word_copied hk]
  have himage : window u.bytes (fpuUser m top) m.fpuStateSize =
      window saved 0 m.fpuStateSize := by
    funext i
    unfold window
    split
    next hi =>
      rw [hu, written, blit_of_not_mem (by omega), blit_of_mem hi, Nat.zero_add]
    next => rfl
  generalize huc : window u.bytes (sp + 8) UCONTEXT_SIZE = uc at hword
  have hcp : userCopyin m u ctx'.sp UCONTEXT_SIZE = .ok uc := by
    simp only [SIGFRAME_SIZE] at hframeLe
    rw [hc, userCopyin, if_pos ⟨by omega, by simp only [UCONTEXT_SIZE]; omega, hfrm⟩, huc]
  have hload : loadFpu m true u uc = .ok () := by
    have hadr : word uc 24 = BitVec.ofNat 64 (fpuUser m top) := hword 24 (by decide)
    have hflg : word uc 0 = UC_FPU := hword 0 (by decide)
    rw [loadFpu, hflg, if_neg (by decide), if_neg (by decide), hadr, BitVec.toNat_ofNat,
      Nat.mod_eq_of_lt (by omega), userCopyin, if_pos ⟨hfpu, by omega, hsta⟩, himage]
    exact if_pos hsaved
  have hrip' : word uc 22 = ctx.rip := hword 22 (by decide)
  have hmk : word uc 5 = oldMask := hword 5 (by decide)
  have hrflags : word uc 23 = ctx.rflags := hword 23 (by decide)
  refine ⟨loadMcontext ctx' uc, ?_, ?_, hrip', ?_⟩
  · have hret : archSignalReturn m true u ctx' = .ok (loadMcontext ctx' uc, oldMask) := by
      refine bind_eq_ok.mpr ⟨uc, hcp, guard_eq_ok.mpr ⟨?_, bind_eq_ok.mpr ⟨_, hload, ?_⟩⟩⟩
      · rw [hrip']
        exact Nat.not_le.mpr hrip
      · rw [hmk]
        rfl
    rw [sysSigreturn, hret]
  · funext r
    have hidx : 6 + Reg.all.idxOf r < 30 := by cases r <;> decide
    refine (hword _ hidx).trans ?_
    cases r <;> rfl
  · exact (rflags_user ctx'.rflags (word uc 23)).1.trans (by rw [hrflags])

end

/-- **A handler's return restores the interrupted code**, if that was running below the end of
user space and the frame can be read back. -/
theorem signal_return_restores (m : Machine)
    (hsaved : fpuStateValid m (window saved 0 m.fpuStateSize)) :
    (∀ t ctx action info oldMask u ctx' u',
      archSignalSetup m t saved ctx action info oldMask u = .ok (ctx', u') →
        Placed m t ctx action (stackTop t action ctx.sp) ctx'.sp ∧
        u'.bytes = written m t saved (stackTop t action ctx.sp) ctx'.sp ctx action info oldMask
          u.bytes ∧
        ∀ c : HartContext, c.sp = ctx'.sp + 8 → ctx.rip.toNat < m.userEnd →
          u.canRead (ctx'.sp + 8) UCONTEXT_SIZE →
          u.canRead (fpuUser m (stackTop t action ctx.sp)) m.fpuStateSize →
            ∃ c', sysSigreturn m true u' c =
                some (c', oldMask &&& ~~~(sigbit SIGKILL ||| sigbit SIGSTOP)) ∧
              c'.regs = ctx.regs ∧ c'.rip = ctx.rip ∧
                c'.rflags &&& RFLAGS_USER = ctx.rflags &&& RFLAGS_USER) ∧
    ∀ page u c c' mask, archSignalReturn m page u c = .ok (c', mask) →
      c'.rip.toNat < m.userEnd ∧
        c'.rflags &&& ~~~RFLAGS_USER = c.rflags &&& ~~~RFLAGS_USER := by
  constructor
  · intro t ctx action info oldMask u ctx' u' h
    obtain ⟨hplaced, hfpu, rfl⟩ := archSignalSetup_ok h
    exact ⟨hplaced, rfl, fun c hc hrip hframe hstate =>
      sysSigreturn_written hplaced hfpu rfl hsaved hframe hstate hrip hc⟩
  · intro page u c c' mask h
    exact archSignalReturn_ok h

/-- Four levels, no extended state. -/
def plainMachine : Machine := ⟨0, 512, 0xFFFF, 0, by decide⟩

/-- A handler is set up for code that runs at `rip`, on an ordinary stack. -/
def plainSetup (rip : BitVec 64) (oldMask : SigSet) (readable : Bool) :
    Except Errno (HartContext × UserMemory) :=
  archSignalSetup plainMachine ⟨0, 0⟩ (fun _ => 0) ⟨fun _ => 0x10000, rip, 0x202⟩
    ⟨0x1000, 0x2000, false⟩ (fun _ => 0) oldMask ⟨fun _ => 0, fun _ _ => readable, fun _ _ => true⟩

/-- It returns: the instruction pointer and the mask, none inside if the process is killed. -/
def plainReturn (rip : BitVec 64) (oldMask : SigSet) (page readable : Bool) :
    Option (Option (BitVec 64 × SigSet)) :=
  match plainSetup rip oldMask readable with
  | .error _ => none
  | .ok (c, u) =>
    some ((sysSigreturn plainMachine page u ⟨fun _ => c.regs .rsp + 8, c.rip, c.rflags⟩).map
      fun (c, mask) => (c.rip, mask))

theorem signal_return_restores_plain : ∃ c u c', plainSetup 0x1000 2 true = .ok (c, u) ∧
    (c.sp + 8) % 16 = 0 ∧
    sysSigreturn plainMachine true u ⟨fun _ => c.regs .rsp + 8, c.rip, c.rflags⟩ = some (c', 2) ∧
    c'.regs = (fun _ => 0x10000) ∧ c'.rip = 0x1000 ∧ c'.rflags &&& RFLAGS_USER = 0 := by
  have hsp : (plainSetup 0x1000 2 true).toOption.map (·.1.regs .rsp) = some 64600 := by
    decide +kernel
  cases h : plainSetup 0x1000 2 true with
  | error => rw [h] at hsp; cases hsp
  | ok r =>
    rw [h] at hsp
    obtain ⟨hplaced, -, hreturn⟩ :=
      (signal_return_restores plainMachine (by decide +kernel)).1 _ _ _ _ _ _ _ _ h
    obtain ⟨c', hc', hregs, hrip, hflags⟩ :=
      hreturn ⟨fun _ => r.1.regs .rsp + 8, r.1.rip, r.1.rflags⟩
        (by simp [HartContext.sp, Option.some.inj hsp]) (by decide) rfl rfl
    exact ⟨r.1, r.2, c', rfl, hplaced.aligned, hc', hregs, hrip, hflags⟩

/-- A return to kernel addresses, one without memory for the image or without access to the frame
ends the process, and `SIGKILL` is not blocked again. -/
theorem signal_return_refused :
    plainReturn 0x800000000000 0 true true = some none ∧
      plainReturn 0x1000 0 false true = some none ∧
      plainReturn 0x1000 0 true false = some none ∧
      plainReturn 0x1000 (sigbit SIGKILL) true true = some (some (0x1000, 0)) := by
  decide +kernel

end Vex.Proc.SignalFrame
