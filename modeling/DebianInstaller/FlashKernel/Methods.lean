import DebianInstaller.FlashKernel.Mtd

/-!
# What fits on the flash

`generic`, `redboot` and `slug` are the methods that write to the partitions. The writers of
`generic` and `redboot` look at the size of the kernel once more before they write it, so the
kernel fits. The size of the initrd is the one from the beginning, and with `slug` that is also so
for the kernel. They are the sizes of links if `/boot` has links in it: `readlink` comes after
`stat`, and for the initrd it does not come at all.
-/

namespace DebianInstaller.FlashKernel

/-! ## The machine and the files -/

inductive Method where
  | generic
  | redboot
  | slug
  deriving DecidableEq

/-- The fields of an entry that have a say in what is written. Of an address, a path or an
identifier it matters whether it is there. -/
structure Machine where
  method : Method
  mtdKernel : Option Mtd
  mtdInitrd : Option Mtd
  machineId : Bool
  dtbAppend : Bool
  ukaddr : Bool
  uiaddr : Bool
  umaddr : Bool
  bootDevice : Bool
  bootKernelPath : Bool
  bootMultiPath : Bool
  bootInitrdPath : Bool

/-- A file, and the length of the link if the name is that of a link. -/
structure File where
  size : ℕ
  link : Option ℕ

/-- `stat -c '%s'` -/
def File.stat (f : File) : ℕ := f.link.getD f.size

structure Files where
  kernel : File
  initrd : Option File
  /-- What `find_dtb_file` finds. -/
  dtb : Option ℕ
  /-- `Boot-Device` can be mounted. -/
  mounted : Bool
  /-- The size of the image that `mkimage -T multi` makes of a kernel and an initrd. -/
  multi : ℕ → Option ℕ → ℕ
  /-- There is a partition `FIS directory`. -/
  fisDirectory : Bool
  /-- The offset of the partition `Kernel` in it, if it has one. -/
  kernelOffset : Option ℤ

def Machine.size (m : Machine) : Partition → ℕ
  | .kernel => mtdsize m.mtdKernel
  | .initrd => mtdsize m.mtdInitrd

/-! ## The code -/

section

variable (m : Machine) (f : Files)

def ireqsize : Option ℕ :=
  if m.uiaddr then some ((f.initrd.map File.stat).getD 0 + 64) else f.initrd.map File.stat

/-- The checks in front of the methods. -/
def sizeChecks : List Stage :=
  [checkMtdSize (some f.kernel.stat) m.mtdKernel, checkMtdSize (ireqsize m f) m.mtdInitrd]

/-- `flash_kernel`; it fails without an input file. -/
def flashKernel (input : Option ℕ) (machineId : Bool) : List Stage :=
  match input with
  | none => [.require false]
  | some n =>
      let kreqsize := if machineId then n + 8 else n
      checkMtdSize (some kreqsize) m.mtdKernel :: writeMtd .kernel kreqsize m.mtdKernel

/-- `flash_initrd` -/
def flashInitrd (input : ℕ) (pad : ℤ) : List Stage :=
  writeMtd .initrd (input + pad.toNat) m.mtdInitrd

/-- The kernel with the DTB behind it or the machine's number in front. -/
def genericKernel : ℕ :=
  if m.dtbAppend then f.kernel.size + f.dtb.getD 0
  else if m.machineId then f.kernel.size + 8
  else f.kernel.size

def uImage : Option ℕ :=
  let kernel := if m.ukaddr then genericKernel m f + 64 else genericKernel m f
  if m.umaddr then some (f.multi kernel (f.initrd.map File.size))
  else if m.ukaddr then some kernel
  else none

/-- `$kernel` is a file that `rm -f` has removed after `mkimage_multi`. -/
def kernelGone : Bool := m.umaddr && !m.ukaddr && (m.dtbAppend || m.machineId)

/-- `Boot-Kernel-Path` comes before `Mtd-Kernel`. The file is moved there. -/
def genericKernelPart : List Stage :=
  if m.bootKernelPath then [.require (!kernelGone m)]
  else if m.mtdKernel.isSome then flashKernel m (uImage m f) false
  else []

/-- `$tmpdir/uImage` is there after the kernel's part: it was made, and has neither been moved to
`Boot-Kernel-Path` nor removed behind `flash_kernel`. -/
def uImageLeft : Bool :=
  (m.ukaddr || m.umaddr) && (if m.bootKernelPath then !m.ukaddr else m.mtdKernel.isNone)

def genericMultiPart : List Stage :=
  if m.bootMultiPath then [.require (uImageLeft m)] else []

/-- Padding is not needed for U-Boot images. -/
def genericInitrd (initrd : File) : List Stage :=
  if m.uiaddr then flashInitrd m (initrd.size + 64) 0
  else flashInitrd m initrd.size (mtdsize m.mtdInitrd - initrd.stat)

def genericInitrdPart : List Stage :=
  match f.initrd with
  | none => [.require (!m.uiaddr && !m.bootInitrdPath && m.mtdInitrd.isNone)]
  | some initrd =>
      if m.bootInitrdPath = false ∧ m.mtdInitrd.isSome then genericInitrd m initrd else []

def generic : List Stage :=
  .require (!m.dtbAppend || f.dtb.isSome) :: .require (!m.bootDevice || f.mounted) ::
    (genericKernelPart m f ++ (genericMultiPart m ++ genericInitrdPart m f))

def redboot : List Stage :=
  match f.initrd with
  | none => [.require false]
  | some initrd =>
      flashKernel m (some f.kernel.size) m.machineId ++
        flashInitrd m initrd.size (mtdsize m.mtdInitrd - initrd.stat)

/-- `> "$mtd"` -/
def writeRaw (part : Partition) (n : ℕ) (mtd : Option Mtd) : List Stage :=
  match mtd with
  | none => [.require false]
  | some _ => [.write ⟨part, n, n⟩]

def boundary : ℤ := 1441792

/-- `$(($boundary - $offset - 16))`. Where `$offset` is empty the second minus is a sign. -/
def ksize1 : ℤ :=
  match f.kernelOffset with
  | some offset => boundary - offset - 16
  | none => boundary - -16

/-- The kernel in two parts, each with a header. `dd` copies nothing if the size of the first part
is not positive. -/
def slugKernel : List Stage :=
  let kpart1 := if 0 < ksize1 f then min f.kernel.size (ksize1 f).toNat else 0
  let kpart2 := if 0 < ksize1 f then f.kernel.size - (ksize1 f).toNat else 0
  writeRaw .kernel (16 + kpart1 + 16 + kpart2) m.mtdKernel

/-- The header and the initrd in blocks; `dd` fails if the size of a block is not positive. -/
def slugInitrd (initrd : File) : List Stage :=
  let ibs := mtdsize m.mtdInitrd - 16
  .require (0 < ibs) :: writeRaw .initrd (16 + filled ibs initrd.size) m.mtdInitrd

def slug : List Stage :=
  match f.initrd with
  | none => [.require false]
  | some initrd =>
      .require f.fisDirectory :: checkMtdSize (some (f.kernel.stat + 16 + 16)) m.mtdKernel ::
        checkMtdSize (some (initrd.stat + 16)) m.mtdInitrd ::
        (slugKernel m f ++ slugInitrd m initrd)

def main : List Stage :=
  sizeChecks m f ++
    match m.method with
    | .generic => generic m f
    | .redboot => redboot m f
    | .slug => slug m f

/-! ## When it fits -/

/-- The checks in front of the methods let the machine through. -/
structure Checked : Prop where
  kernel : ∀ k, m.mtdKernel = some k → f.kernel.stat ≤ k.size
  initrd : ∀ i, m.mtdInitrd = some i → ∀ n, ireqsize m f = some n → n ≤ i.size

/-- There is a partition for these files with the kernel, and it takes them. -/
def Flashes (input : Option ℕ) (machineId : Bool) : Prop :=
  ∃ n k, input = some n ∧ m.mtdKernel = some k ∧ k.Known ∧
    (if machineId then n + 8 else n) ≤ k.size

/-- The initrd is put on the partition with padding up to the size that `stat` gave. -/
def PaddedFits : Prop :=
  ∀ i initrd, m.mtdInitrd = some i → i.Known → f.initrd = some initrd → initrd.size ≤ initrd.stat

/-- The initrd is put on the partition as an image, or with padding. -/
def InitrdFits : Prop :=
  if m.uiaddr then
    ∀ i initrd, m.mtdInitrd = some i → i.Known → f.initrd = some initrd →
      initrd.size + 64 ≤ i.size
  else PaddedFits m f

def FitsGeneric : Prop :=
  (m.dtbAppend → f.dtb.isSome) → (m.bootDevice → f.mounted) →
    (m.bootKernelPath → kernelGone m = false) →
    (m.bootKernelPath = false → m.mtdKernel.isSome → Flashes m (uImage m f) false) →
    (m.bootMultiPath → uImageLeft m) → m.bootInitrdPath = false → InitrdFits m f

def FitsRedboot : Prop :=
  Flashes m (some f.kernel.size) m.machineId → PaddedFits m f

def FitsSlug : Prop :=
  ∀ initrd k, f.initrd = some initrd → f.fisDirectory = true →
    m.mtdKernel = some k → f.kernel.stat + 32 ≤ k.size →
    (∀ i, m.mtdInitrd = some i → initrd.stat + 16 ≤ i.size) →
      (0 < ksize1 f → f.kernel.size + 32 ≤ k.size) ∧
        ∀ i, m.mtdInitrd = some i → 16 < i.size → initrd.size + 16 ≤ i.size

/-- A file that a link hides is not larger than the partition, or the run does not get to it. -/
def Fits : Prop :=
  Checked m f →
    match m.method with
    | .generic => FitsGeneric m f
    | .redboot => FitsRedboot m f
    | .slug => FitsSlug m f

end

end DebianInstaller.FlashKernel
