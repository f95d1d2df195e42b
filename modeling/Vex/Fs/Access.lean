import Vex.Errno

/-! What a file is to those who ask for access to it: its type and `stat_t`, the credentials of
the caller, and the permission check `vnode_access` makes on them. -/

namespace Vex.Fs

/-- The `VNODE_*` types. -/
inductive VnodeType
  | file | directory | blockDev | charDev | symLink
  deriving DecidableEq, Repr

abbrev Mode := BitVec 32

abbrev S_IFMT : Mode := 0xF000
abbrev S_IFDIR : Mode := 0x4000

abbrev S_IXOTH : Mode := 0x0001
abbrev S_IXGRP : Mode := 0x0008
abbrev S_IXUSR : Mode := 0x0040
abbrev S_ISGID : Mode := 0x0400
abbrev S_ISUID : Mode := 0x0800

abbrev X_OK : Mode := 0x0001
abbrev W_OK : Mode := 0x0002
abbrev R_OK : Mode := 0x0004

abbrev CAP_DAC_OVERRIDE : Nat := 1
abbrev CAP_FSETID : Nat := 4

/-- The fields of `stat_t` that the modelled functions read. -/
structure Stat where
  mode : Mode
  uid : Int
  gid : Int
  size : Int
  deriving DecidableEq, Repr

/-- `groups` is kept sorted by whoever sets it. -/
structure Credentials where
  euid : Int
  egid : Int
  capEffective : BitVec 64
  groups : Array Int
  deriving DecidableEq, Repr

/-- `kernel_credentials`: no identity, every capability. -/
def kernelCredentials : Credentials :=
  { euid := 0, egid := 0, capEffective := BitVec.allOnes 64, groups := #[] }

def credCapable (credentials : Credentials) (cap : Nat) : Bool :=
  credentials.capEffective.getLsbD cap

/-- The binary search of `cred_in_group` between `low` and `high`. -/
def groupSearch (groups : Array Int) (gid : Int) (low high : Nat) : Bool :=
  if low < high then
    let mid := low + (high - low) / 2
    let group := groups.getD mid 0
    if group = gid then true
    else if group < gid then groupSearch groups gid (mid + 1) high
    else groupSearch groups gid low mid
  else false
termination_by high - low

def credInGroup (credentials : Credentials) (gid : Int) : Bool :=
  credentials.egid == gid || groupSearch credentials.groups gid 0 credentials.groups.size

/-- `vnode_access` once the node's `stat_t` is known. -/
def statAccess (st : Stat) (credentials : Credentials) (mask : Mode) : Except Errno Unit :=
  if credCapable credentials CAP_DAC_OVERRIDE then
    -- even root executes only what is executable for someone, directories apart
    if mask &&& X_OK ≠ 0 ∧ st.mode &&& S_IFMT ≠ S_IFDIR ∧
        st.mode &&& (S_IXUSR ||| S_IXGRP ||| S_IXOTH) = 0 then
      .error .EACCES
    else .ok ()
  else
    let granted :=
      if credentials.euid = st.uid then st.mode >>> 6 &&& 7
      else if credInGroup credentials st.gid then st.mode >>> 3 &&& 7
      else st.mode &&& 7
    if granted &&& mask ≠ mask then .error .EACCES else .ok ()

end Vex.Fs
