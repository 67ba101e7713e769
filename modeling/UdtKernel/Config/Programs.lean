import UdtKernel.Config.Numbers
import UdtKernel.Lib.KeyedSet

set_option autoImplicit false

/-! How programs, links and snapshots of kernels are written and read. -/

namespace UdtKernel
open UdtKernel.Lib Config

def serializeUuid (u : Uuid) : Config := .leaf "uuid" (unsignedToStr u)

def uuidOf (c : Config) : Uuid := readValue (strToUnsigned 64) 0 c.value

def serializeUuids (l : List Uuid) : Config := (Config.named "uuids").addAll (l.map serializeUuid)

def uuidsOf (c : Config) : List Uuid := (c.childrenOf "uuid").map uuidOf

def areUuidsValid (l : List Uuid) : Bool := l.all fun u => u ≠ 0

def Id.serialize (i : Id) : Config :=
  Config.named "id" |>.add (serializeUuid i.uuid) |>.set "n" i.name

def Id.ofConfig (c : Config) : Id := ⟨uuidOf (c.child "uuid"), c.get "n" some []⟩

def Id.isValid (i : Id) : Bool := i.name ≠ [] || i.uuid ≠ 0

def Version.serialize (v : Version) : Config :=
  if v.major ≠ 0 ∨ v.minor ≠ 0 ∨ v.release ≠ 0 then
    Config.named "ver" |>.set "mj" (unsignedToStr v.major) |>.set "mn" (unsignedToStr v.minor)
      |>.set "rs" (unsignedToStr v.release)
  else Config.named "ver"

def Version.ofConfig (c : Config) : Version where
  major := c.get "mj" (strToUnsigned 32) 0 % 2 ^ 8
  minor := c.get "mn" (strToUnsigned 32) 0 % 2 ^ 8
  release := c.get "rs" (strToUnsigned 32) 0 % 2 ^ 16

/-- The value of an `eEndian`. -/
def Endian.toUnsigned : Endian → ℕ
  | .little => 0
  | .big => 1

/-- The `eEndian` of a value. -/
def Endian.ofUnsigned (n : ℕ) : Endian := if n = 1 then .big else .little

namespace Service

structure ProgramId where
  id : Id
  version : Version
  time : ℕ
  pid : ℕ
  path : Text
  type : ℕ
  endian : Endian
  deriving DecidableEq

def ProgramId.serialize (p : ProgramId) : Config :=
  Config.named "info" |>.set "tm" (unsignedToStr p.time) |>.set "pid" (unsignedToStr p.pid)
    |>.addValue "path" p.path |>.addValue "type" (unsignedToStr p.type)
    |>.addValue "edn" (unsignedToStr p.endian.toUnsigned)
    |>.add p.id.serialize |>.add p.version.serialize

def ProgramId.ofConfig (c : Config) : ProgramId where
  id := Id.ofConfig (c.child "id")
  version := Version.ofConfig (c.child "ver")
  time := c.get "tm" (strToUnsigned 32) 0
  pid := c.get "pid" (strToUnsigned 64) 0
  path := c.get "path" some []
  type := (c.get "type" strToInt 0).toNat
  endian := .ofUnsigned (c.get "edn" (strToUnsigned 32) shareEndian.toUnsigned)

def ProgramId.isValid (p : ProgramId) : Bool := p.id.isValid && p.time ≠ 0 && p.pid ≠ 0

structure KernelLink where
  program : ProgramId
  connectTime : ℕ
  typeLink : Text
  latency : ℕ
  deriving DecidableEq

def KernelLink.serialize (l : KernelLink) : Config :=
  Config.named "klink" |>.addValue "klat" (unsignedToStr l.latency)
    |>.addValue "ctime" (unsignedToStr l.connectTime) |>.add l.program.serialize
    |>.addValue "link" l.typeLink

/-- `kernel_link(conf)`, at some time. -/
def KernelLink.ofConfig (now : ℕ) (c : Config) : KernelLink where
  program := ProgramId.ofConfig (c.child "info")
  connectTime := c.get "ctime" (strToUnsigned 64) now
  typeLink := c.get "link" some []
  latency := c.get "klat" (strToUnsigned 16) (2 ^ 16 - 1)

def KernelLink.isValid (l : KernelLink) : Bool := l.program.isValid && l.latency ≠ 2 ^ 16 - 1

/-- By what `kernel_link::operator<` compares. -/
def KernelLink.uuid (l : KernelLink) : Uuid := l.program.id.uuid

structure KernelInfos where
  kernelInfo : ProgramId
  customerInfo : KeyedSet KernelLink.uuid
  indexNumber : ℕ
  deriving DecidableEq

def KernelInfos.serialize (k : KernelInfos) : Config :=
  Config.named "kinf" |>.add k.kernelInfo.serialize
    |>.addValue "indx" (unsignedToStr k.indexNumber)
    |>.addAll (k.customerInfo.elements.map KernelLink.serialize)

def KernelInfos.ofConfig (now : ℕ) (c : Config) : KernelInfos where
  kernelInfo := ProgramId.ofConfig (c.child "info")
  customerInfo := KeyedSet.ofList ((c.childrenOf "klink").map (KernelLink.ofConfig now))
  indexNumber := c.get "indx" (strToUnsigned 32) 0

def KernelInfos.isValid (k : KernelInfos) : Bool :=
  k.kernelInfo.isValid && k.customerInfo.elements.all KernelLink.isValid

/-- By what `CKernelInfoLessCompare` compares. -/
def KernelInfos.uuid (k : KernelInfos) : Uuid := k.kernelInfo.id.uuid

structure KernelInfosArray where
  kernels : KeyedSet KernelInfos.uuid
  numberOfChange : ℕ
  deriving DecidableEq

def KernelInfosArray.serialize (a : KernelInfosArray) : Config :=
  Config.named "kinfs" |>.set "numc" (unsignedToStr a.numberOfChange)
    |>.addAll (a.kernels.elements.map KernelInfos.serialize)

def KernelInfosArray.ofConfig (now : ℕ) (c : Config) : KernelInfosArray where
  kernels := KeyedSet.ofList ((c.childrenOf "kinf").map (KernelInfos.ofConfig now))
  numberOfChange := c.get "numc" (strToUnsigned 32) 0

def KernelInfosArray.isValid (a : KernelInfosArray) : Bool :=
  a.numberOfChange ≠ 0 && a.kernels.elements.all KernelInfos.isValid

end Service

structure Version.Fits (v : Version) : Prop where
  major : v.major < 2 ^ 8
  minor : v.minor < 2 ^ 8
  release : v.release < 2 ^ 16

theorem Unsigned.of_lt {bits bits' n : ℕ} (h : n < 2 ^ bits) (hle : bits ≤ bits') :
    Unsigned bits' n := Nat.lt_of_lt_of_le h (Nat.pow_le_pow_right (by decide) hle)

theorem map_map_eq_self {α β : Type} {f : β → α} {g : α → β} {l : List α}
    (h : ∀ a ∈ l, f (g a) = a) : (l.map g).map f = l := by
  rw [List.map_map]
  exact (List.map_congr_left h).trans (List.map_id l)

@[simp] theorem key_serializeUuid (u : Uuid) : (serializeUuid u).key = "uuid" := by
  simp [serializeUuid]

@[simp] theorem uuidOf_serializeUuid {u : Uuid} (h : Unsigned 64 u) :
    uuidOf (serializeUuid u) = u := readValue_unsigned 0 h

@[simp] theorem key_serializeUuids (l : List Uuid) : (serializeUuids l).key = "uuids" :=
  Config.key_addAll _ _

@[simp] theorem Id.key_serialize (i : Id) : i.serialize.key = "id" := rfl

@[simp] theorem Id.ofConfig_serialize {i : Id} (h : Unsigned 64 i.uuid) :
    Id.ofConfig i.serialize = i := by
  simp [Id.ofConfig, Id.serialize, Config.get, h]

@[simp] theorem Version.key_serialize (v : Version) : v.serialize.key = "ver" := by
  unfold Version.serialize
  split_ifs <;> rfl

@[simp] theorem Version.ofConfig_serialize {v : Version} (h : v.Fits) :
    Version.ofConfig v.serialize = v := by
  unfold Version.serialize
  split_ifs with hv
  · have hmajor : v.major % 256 = v.major := Nat.mod_eq_of_lt h.major
    have hminor : v.minor % 256 = v.minor := Nat.mod_eq_of_lt h.minor
    have hrelease : v.release % 65536 = v.release := Nat.mod_eq_of_lt h.release
    simp [Version.ofConfig, Config.get, Unsigned.of_lt h.major, Unsigned.of_lt h.minor,
      Unsigned.of_lt h.release, hmajor, hminor, hrelease]
  · push Not at hv
    obtain ⟨hmajor, hminor, hrelease⟩ := hv
    cases v
    simp_all [Version.ofConfig, Config.get, readValue]

@[simp] theorem uuidsOf_serializeUuids {l : List Uuid} (h : ∀ u ∈ l, Unsigned 64 u) :
    uuidsOf (serializeUuids l) = l := by
  have hl := map_map_eq_self fun u hu => uuidOf_serializeUuid (h u hu)
  simp [uuidsOf, serializeUuids, -List.map_map, hl]

@[simp] theorem uuidsOf_empty : uuidsOf .empty = [] := rfl

theorem Endian.toUnsigned_lt (e : Endian) : e.toUnsigned < 2 := by
  cases e <;> decide

@[simp] theorem Endian.ofUnsigned_toUnsigned (e : Endian) : ofUnsigned e.toUnsigned = e := by
  cases e <;> rfl

namespace Service

structure ProgramId.Fits (p : ProgramId) : Prop where
  uuid : Unsigned 64 p.id.uuid
  version : p.version.Fits
  time : Unsigned 32 p.time
  pid : Unsigned 64 p.pid
  type : p.type < 4

@[simp] theorem ProgramId.key_serialize (p : ProgramId) : p.serialize.key = "info" := rfl

@[simp] theorem ProgramId.ofConfig_serialize {p : ProgramId} (h : p.Fits) :
    ProgramId.ofConfig p.serialize = p := by
  have hendian : Unsigned 32 p.endian.toUnsigned :=
    @Unsigned.of_lt 1 32 _ p.endian.toUnsigned_lt (by decide)
  have htype : Unsigned 31 p.type := @Unsigned.of_lt 2 31 _ h.type (by decide)
  simp [ofConfig, serialize, Config.get, h.uuid, h.version, h.time, h.pid, hendian, htype]

structure KernelLink.Fits (l : KernelLink) : Prop where
  program : l.program.Fits
  connectTime : Unsigned 64 l.connectTime
  latency : Unsigned 16 l.latency

@[simp] theorem KernelLink.key_serialize (l : KernelLink) : l.serialize.key = "klink" := by
  simp [serialize]

@[simp] theorem KernelLink.ofConfig_serialize (now : ℕ) {l : KernelLink} (h : l.Fits) :
    KernelLink.ofConfig now l.serialize = l := by
  simp [ofConfig, serialize, Config.get, h.program, h.connectTime, h.latency]

structure KernelInfos.Fits (k : KernelInfos) : Prop where
  kernelInfo : k.kernelInfo.Fits
  customerInfo : ∀ l ∈ k.customerInfo.elements, l.Fits
  indexNumber : Unsigned 32 k.indexNumber

@[simp] theorem KernelInfos.key_serialize (k : KernelInfos) : k.serialize.key = "kinf" :=
  Config.key_addAll _ _

@[simp] theorem KernelInfos.ofConfig_serialize (now : ℕ) {k : KernelInfos} (h : k.Fits) :
    KernelInfos.ofConfig now k.serialize = k := by
  have hlinks := map_map_eq_self fun l hl => KernelLink.ofConfig_serialize now (h.customerInfo l hl)
  simp [ofConfig, serialize, Config.get, h.kernelInfo, h.indexNumber, -List.map_map, hlinks,
    KeyedSet.ofList_elements]

structure KernelInfosArray.Fits (a : KernelInfosArray) : Prop where
  kernels : ∀ k ∈ a.kernels.elements, k.Fits
  numberOfChange : Unsigned 32 a.numberOfChange

@[simp] theorem KernelInfosArray.key_serialize (a : KernelInfosArray) :
    a.serialize.key = "kinfs" := Config.key_addAll _ _

@[simp] theorem KernelInfosArray.ofConfig_serialize (now : ℕ) {a : KernelInfosArray}
    (h : a.Fits) : KernelInfosArray.ofConfig now a.serialize = a := by
  have hkernels := map_map_eq_self fun k hk => KernelInfos.ofConfig_serialize now (h.kernels k hk)
  simp [ofConfig, serialize, Config.get, h.numberOfChange, -List.map_map, hkernels,
    KeyedSet.ofList_elements]

end Service

end UdtKernel
