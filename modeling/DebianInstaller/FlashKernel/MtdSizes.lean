import DebianInstaller.FlashKernel.Methods

/-!
# The sizes of the partitions

Per method: what it plans to write, and when its writes fit. The padding of an initrd is what the
partition has left over behind the size from `stat`, so the padded initrd fits exactly if the file
is no larger than that size.
-/

namespace DebianInstaller.FlashKernel

section

variable (m : Machine) (f : Files)

variable {initrd : File} {size : Partition → ℕ}

theorem checkMtdSize_ok (required : Option ℕ) (mtd : Option Mtd) :
    ∃ ok, checkMtdSize required mtd = .require ok ∧
      (ok = true ↔ ∀ k, mtd = some k → ∀ n, required = some n → n ≤ k.size) := by
  cases required with
  | none => exact ⟨true, by cases mtd <;> rfl, by simp⟩
  | some n =>
    cases mtd with
    | none => exact ⟨true, rfl, by simp⟩
    | some k => exact ⟨_, rfl, by simp⟩

theorem writesFit_checkMtdSize (required : Option ℕ) (mtd : Option Mtd) (rest : List Stage) :
    WritesFit size (checkMtdSize required mtd :: rest) ↔
      ((∀ k, mtd = some k → ∀ n, required = some n → n ≤ k.size) → WritesFit size rest) := by
  obtain ⟨ok, heq, hok⟩ := checkMtdSize_ok required mtd
  rw [heq, writesFit_require, hok]

theorem failed_checkMtdSize (required : Option ℕ) (mtd : Option Mtd) (rest : List Stage) :
    (run (checkMtdSize required mtd :: rest)).failed = false ↔
      (∀ k, mtd = some k → ∀ n, required = some n → n ≤ k.size) ∧ (run rest).failed = false := by
  obtain ⟨ok, heq, hok⟩ := checkMtdSize_ok required mtd
  rw [heq, failed_require, hok]

@[simp]
theorem planned_checkMtdSize (required : Option ℕ) (mtd : Option Mtd) (rest : List Stage) :
    planned (checkMtdSize required mtd :: rest) = planned rest := by
  obtain ⟨ok, heq, -⟩ := checkMtdSize_ok required mtd
  rw [heq, planned_require]

/-! ## The checks in front -/

theorem sizeChecks_failed : (run (sizeChecks m f)).failed = false ↔ Checked m f := by
  unfold sizeChecks
  rw [failed_checkMtdSize, failed_checkMtdSize]
  constructor
  · rintro ⟨hkernel, hinitrd, -⟩
    exact ⟨fun k hk => hkernel k hk _ rfl, hinitrd⟩
  · intro h
    refine ⟨fun k hk n hn => ?_, h.initrd, rfl⟩
    obtain rfl := Option.some.inj hn
    exact h.kernel k hk

theorem sizeChecks_fits : WritesFit m.size (sizeChecks m f) := by
  unfold sizeChecks
  rw [writesFit_checkMtdSize, writesFit_checkMtdSize]
  exact fun _ _ => writesFit_nil

theorem planned_sizeChecks : planned (sizeChecks m f) = [] := by
  simp [sizeChecks]

/-! ## The writers -/

theorem flashKernel_fits (input : Option ℕ) (machineId : Bool) :
    WritesFit m.size (flashKernel m input machineId) := by
  unfold flashKernel
  cases input with
  | none => exact (writesFit_require _ _).mpr fun h => by cases h
  | some n =>
    rw [writesFit_checkMtdSize]
    intro hcheck
    rw [writeMtd_fits (show m.size .kernel = mtdsize m.mtdKernel from rfl)]
    exact fun k hk _ => hcheck k hk _ rfl

theorem flashKernel_failed (input : Option ℕ) (machineId : Bool) :
    (run (flashKernel m input machineId)).failed = false ↔ Flashes m input machineId := by
  unfold flashKernel Flashes
  cases input with
  | none => simp
  | some n =>
    rw [failed_checkMtdSize, writeMtd_failed]
    constructor
    · rintro ⟨hcheck, k, hk, hknown⟩
      exact ⟨n, k, rfl, hk, hknown, hcheck k hk _ rfl⟩
    · rintro ⟨n', k, hn, hk, hknown, hle⟩
      obtain rfl := Option.some.inj hn
      refine ⟨fun k' hk' r hr => ?_, k, hk, hknown⟩
      obtain rfl := Option.some.inj hr
      obtain rfl := Option.some.inj (hk.symm.trans hk')
      exact hle

theorem atMost_flashKernel (input : Option ℕ) (machineId : Bool) :
    AtMost .kernel (planned (flashKernel m input machineId)) := by
  unfold flashKernel
  cases input with
  | none => exact .inl rfl
  | some n =>
    rw [planned_checkMtdSize]
    exact atMost_writeMtd ..

theorem flashInitrd_fits (n : ℕ) (pad : ℤ) :
    WritesFit m.size (flashInitrd m n pad) ↔
      ∀ i, m.mtdInitrd = some i → i.Known → n + pad.toNat ≤ i.size :=
  writeMtd_fits (show m.size .initrd = mtdsize m.mtdInitrd from rfl) _

theorem stat_le_ireqsize (hinitrd : f.initrd = some initrd) :
    ∃ n, ireqsize m f = some n ∧ initrd.stat ≤ n := by
  unfold ireqsize
  rw [hinitrd]
  cases m.uiaddr with
  | true => exact ⟨initrd.stat + 64, rfl, Nat.le_add_right ..⟩
  | false => exact ⟨initrd.stat, rfl, le_rfl⟩

theorem flashPadded_fits (hchecked : Checked m f) (hinitrd : f.initrd = some initrd) :
    WritesFit m.size (flashInitrd m initrd.size (mtdsize m.mtdInitrd - initrd.stat)) ↔
      PaddedFits m f := by
  rw [flashInitrd_fits]
  have hiff : ∀ i, m.mtdInitrd = some i →
      (initrd.size + (mtdsize m.mtdInitrd - initrd.stat : ℤ).toNat ≤ i.size ↔
        initrd.size ≤ initrd.stat) := by
    intro i hi
    obtain ⟨n, hreq, hn⟩ := stat_le_ireqsize m f hinitrd
    have hstat : initrd.stat ≤ i.size := hn.trans (hchecked.initrd i hi n hreq)
    have hsize : mtdsize m.mtdInitrd = i.size := by rw [hi]; rfl
    rw [hsize]
    omega
  constructor
  · intro h i g hi hknown hg
    obtain rfl := Option.some.inj (hinitrd.symm.trans hg)
    exact (hiff i hi).mp (h i hi hknown)
  · intro h i hi hknown
    exact (hiff i hi).mpr (h i initrd hi hknown hinitrd)

/-! ## The methods -/

theorem genericInitrd_fits (hchecked : Checked m f) (hinitrd : f.initrd = some initrd) :
    WritesFit m.size (genericInitrd m initrd) ↔ InitrdFits m f := by
  unfold genericInitrd InitrdFits
  cases m.uiaddr with
  | false => exact flashPadded_fits m f hchecked hinitrd
  | true =>
    rw [if_pos rfl, if_pos rfl, flashInitrd_fits]
    constructor
    · intro h i g hi hknown hg
      obtain rfl := Option.some.inj (hinitrd.symm.trans hg)
      exact h i hi hknown
    · exact fun h i hi hknown => h i initrd hi hknown hinitrd

theorem initrdFits_of_none (hnone : f.initrd = none ∨ m.mtdInitrd = none) : InitrdFits m f := by
  have hfalse : ∀ i initrd, m.mtdInitrd = some i → ¬ f.initrd = some initrd := by
    intro i initrd hi hinitrd
    rw [hi, hinitrd] at hnone
    simp at hnone
  unfold InitrdFits
  split
  · exact fun i initrd hi _ hinitrd => absurd hinitrd (hfalse i initrd hi)
  · exact fun i initrd hi _ hinitrd => absurd hinitrd (hfalse i initrd hi)

theorem genericInitrdPart_fits (hchecked : Checked m f) :
    WritesFit m.size (genericInitrdPart m f) ↔ (m.bootInitrdPath = false → InitrdFits m f) := by
  unfold genericInitrdPart
  cases hinitrd : f.initrd with
  | none =>
    refine iff_of_true ((writesFit_require _ _).mpr fun _ => writesFit_nil) fun _ => ?_
    exact initrdFits_of_none m f (.inl hinitrd)
  | some initrd =>
    show WritesFit m.size (if _ then _ else _) ↔ _
    by_cases hpath : m.bootInitrdPath = false
    · cases hmtd : m.mtdInitrd with
      | none =>
        rw [if_neg (by simp)]
        exact iff_of_true writesFit_nil fun _ => initrdFits_of_none m f (.inr hmtd)
      | some i =>
        rw [if_pos ⟨hpath, rfl⟩, genericInitrd_fits m f hchecked hinitrd]
        exact ⟨fun h _ => h, fun h => h hpath⟩
    · rw [if_neg fun h => hpath h.1]
      exact iff_of_true writesFit_nil fun h => absurd h hpath

theorem genericKernelPart_fits : WritesFit m.size (genericKernelPart m f) := by
  unfold genericKernelPart
  split
  · exact (writesFit_require _ _).mpr fun _ => writesFit_nil
  · split
    · exact flashKernel_fits m _ _
    · exact writesFit_nil

theorem genericKernelPart_failed :
    (run (genericKernelPart m f)).failed = false ↔
      (m.bootKernelPath → kernelGone m = false) ∧
        (m.bootKernelPath = false → m.mtdKernel.isSome → Flashes m (uImage m f) false) := by
  unfold genericKernelPart
  cases hpath : m.bootKernelPath with
  | true => simp
  | false =>
    rw [if_neg Bool.false_ne_true]
    by_cases hsome : m.mtdKernel.isSome
    · rw [if_pos hsome, flashKernel_failed]
      refine ⟨fun h => ⟨fun htrue => ?_, fun _ _ => h⟩, fun h => h.2 rfl hsome⟩
      cases htrue
    · rw [if_neg hsome]
      refine iff_of_true rfl ⟨fun htrue => ?_, fun _ h => absurd h hsome⟩
      cases htrue

theorem genericMultiPart_fits (rest : List Stage) :
    WritesFit m.size (genericMultiPart m ++ rest) ↔
      ((m.bootMultiPath → uImageLeft m) → WritesFit m.size rest) := by
  unfold genericMultiPart
  cases m.bootMultiPath with
  | false => simp
  | true =>
    rw [if_pos rfl, List.cons_append, List.nil_append, writesFit_require]
    exact ⟨fun h hleft => h (hleft rfl), fun h hleft => h fun _ => hleft⟩

theorem generic_fits (hchecked : Checked m f) :
    WritesFit m.size (generic m f) ↔ FitsGeneric m f := by
  have hdtb : (!m.dtbAppend || f.dtb.isSome) = true ↔ (m.dtbAppend → f.dtb.isSome) := by
    cases m.dtbAppend <;> simp
  have hmounted : (!m.bootDevice || f.mounted) = true ↔ (m.bootDevice → f.mounted) := by
    cases m.bootDevice <;> simp
  unfold generic FitsGeneric
  rw [writesFit_require, writesFit_require, writesFit_append, genericKernelPart_failed,
    genericMultiPart_fits, genericInitrdPart_fits m f hchecked,
    and_iff_right (genericKernelPart_fits m f), hdtb, hmounted, and_imp]

theorem redboot_fits (hchecked : Checked m f) :
    WritesFit m.size (redboot m f) ↔ FitsRedboot m f := by
  unfold redboot FitsRedboot
  cases hinitrd : f.initrd with
  | none =>
    refine iff_of_true ((writesFit_require _ _).mpr fun _ => writesFit_nil) fun _ => ?_
    intro i initrd _ _ h
    rw [hinitrd] at h
    cases h
  | some initrd =>
    show WritesFit m.size (flashKernel m (some f.kernel.size) m.machineId ++ _) ↔ _
    rw [writesFit_append, flashKernel_failed, flashPadded_fits m f hchecked hinitrd]
    exact and_iff_right (flashKernel_fits m _ _)

/-! ## Sercomm images -/

theorem writeRaw_fits {part : Partition} {mtd : Option Mtd} (hsize : size part = mtdsize mtd)
    (n : ℕ) : WritesFit size (writeRaw part n mtd) ↔ ∀ k, mtd = some k → n ≤ k.size := by
  unfold WritesFit
  cases mtd with
  | none => simp [writeRaw]
  | some k =>
    have hk : size part = k.size := hsize
    simp [writeRaw, hk]

theorem writeRaw_failed (part : Partition) (n : ℕ) (mtd : Option Mtd) :
    (run (writeRaw part n mtd)).failed = false ↔ mtd.isSome := by
  cases mtd <;> simp [writeRaw]

theorem atMost_writeRaw (part : Partition) (n : ℕ) (mtd : Option Mtd) :
    AtMost part (planned (writeRaw part n mtd)) := by
  cases mtd with
  | none => exact .inl rfl
  | some k => exact .inr ⟨n, n, le_rfl, rfl⟩

theorem slugKernel_fits {k : Mtd} (hk : m.mtdKernel = some k)
    (hstat : f.kernel.stat + 32 ≤ k.size) :
    WritesFit m.size (slugKernel m f) ↔ (0 < ksize1 f → f.kernel.size + 32 ≤ k.size) := by
  unfold slugKernel
  rw [writeRaw_fits (show m.size .kernel = mtdsize m.mtdKernel from rfl), hk]
  simp only [Option.some.injEq, forall_eq']
  by_cases hpos : 0 < ksize1 f
  · rw [if_pos hpos, if_pos hpos]
    have hparts : min f.kernel.size (ksize1 f).toNat + (f.kernel.size - (ksize1 f).toNat) =
        f.kernel.size := by omega
    constructor
    · intro h _
      omega
    · intro h
      have hle := h hpos
      omega
  · rw [if_neg hpos, if_neg hpos]
    exact iff_of_true (by omega) fun h => absurd h hpos

theorem slugInitrd_fits :
    WritesFit m.size (slugInitrd m initrd) ↔
      ∀ i, m.mtdInitrd = some i → 16 < i.size → initrd.size + 16 ≤ i.size := by
  unfold slugInitrd
  rw [writesFit_require, writeRaw_fits (show m.size .initrd = mtdsize m.mtdInitrd from rfl)]
  cases hmtd : m.mtdInitrd with
  | none => simp
  | some i =>
    have hsize : mtdsize (some i) = i.size := rfl
    simp only [hsize, Option.some.injEq, forall_eq', decide_eq_true_eq]
    by_cases hpos : 0 < i.size - 16
    · have hblock := filled_le_iff hpos (dvd_refl _) initrd.size
      constructor
      · intro h _
        have hle := h hpos
        omega
      · intro h _
        have hle := h (by omega)
        omega
    · exact iff_of_true (fun h => absurd h hpos) fun h => absurd h (by omega)

theorem slugParts_fits (hkernel : ∀ k, m.mtdKernel = some k → f.kernel.stat + 32 ≤ k.size) :
    WritesFit m.size (slugKernel m f ++ slugInitrd m initrd) ↔
      ∀ k, m.mtdKernel = some k → (0 < ksize1 f → f.kernel.size + 32 ≤ k.size) ∧
        ∀ i, m.mtdInitrd = some i → 16 < i.size → initrd.size + 16 ≤ i.size := by
  rw [writesFit_append, slugInitrd_fits]
  have hfailed : (run (slugKernel m f)).failed = false ↔ m.mtdKernel.isSome := by
    unfold slugKernel
    exact writeRaw_failed ..
  rw [hfailed]
  cases hmtd : m.mtdKernel with
  | none =>
    refine iff_of_true ⟨?_, fun h => by cases h⟩ fun k hk => by cases hk
    unfold slugKernel
    rw [writeRaw_fits (show m.size .kernel = mtdsize m.mtdKernel from rfl), hmtd]
    exact fun k hk => by cases hk
  | some k =>
    rw [slugKernel_fits m f hmtd (hkernel k hmtd)]
    constructor
    · intro h k' hk'
      obtain rfl := Option.some.inj hk'
      exact ⟨h.1, h.2 rfl⟩
    · exact fun h => ⟨(h k rfl).1, fun _ => (h k rfl).2⟩

theorem slug_fits : WritesFit m.size (slug m f) ↔ FitsSlug m f := by
  unfold slug FitsSlug
  cases hinitrd : f.initrd with
  | none =>
    refine iff_of_true ((writesFit_require _ _).mpr fun _ => writesFit_nil) ?_
    intro initrd k h
    cases h
  | some initrd =>
    dsimp only
    rw [writesFit_require, writesFit_checkMtdSize, writesFit_checkMtdSize]
    constructor
    · intro h g k hg hfis hk hkstat histat
      obtain rfl := Option.some.inj hg
      have hkernel : ∀ k', m.mtdKernel = some k' → f.kernel.stat + 32 ≤ k'.size := by
        intro k' hk'
        obtain rfl := Option.some.inj (hk.symm.trans hk')
        exact hkstat
      refine (slugParts_fits m f hkernel).mp (h hfis ?_ ?_) k hk
      · intro k' hk' n hn
        obtain rfl := Option.some.inj hn
        exact hkernel k' hk'
      · intro i hi n hn
        obtain rfl := Option.some.inj hn
        exact histat i hi
    · intro h hfis hkernel histat
      have hkernel' : ∀ k, m.mtdKernel = some k → f.kernel.stat + 32 ≤ k.size :=
        fun k hk => hkernel k hk _ rfl
      rw [slugParts_fits m f hkernel']
      exact fun k hk => h initrd k rfl hfis hk (hkernel' k hk) fun i hi => histat i hi _ rfl

/-! ## What is planned -/

theorem atMost_genericInitrdPart : AtMost .initrd (planned (genericInitrdPart m f)) := by
  unfold genericInitrdPart
  cases f.initrd with
  | none => exact .inl rfl
  | some initrd =>
    show AtMost .initrd (planned (if _ then genericInitrd m initrd else []))
    unfold genericInitrd flashInitrd
    split
    · split
      · exact atMost_writeMtd ..
      · exact atMost_writeMtd ..
    · exact .inl rfl

theorem atMost_genericKernelPart : AtMost .kernel (planned (genericKernelPart m f)) := by
  unfold genericKernelPart
  split
  · exact .inl rfl
  · split
    · exact atMost_flashKernel ..
    · exact .inl rfl

theorem planned_genericMultiPart : planned (genericMultiPart m) = [] := by
  unfold genericMultiPart
  split <;> rfl

theorem main_planned : ∃ kernel initrd, planned (main m f) = kernel ++ initrd ∧
    AtMost .kernel kernel ∧ AtMost .initrd initrd := by
  unfold main
  rw [planned_append, planned_sizeChecks, List.nil_append]
  cases m.method with
  | generic =>
    refine ⟨_, _, ?_, atMost_genericKernelPart m f, atMost_genericInitrdPart m f⟩
    show planned (generic m f) = _
    unfold generic
    rw [planned_require, planned_require, planned_append, planned_append, planned_genericMultiPart,
      List.nil_append]
  | redboot =>
    show ∃ kernel initrd, planned (redboot m f) = kernel ++ initrd ∧ _
    unfold redboot
    cases f.initrd with
    | none => exact ⟨[], [], rfl, .inl rfl, .inl rfl⟩
    | some initrd =>
      exact ⟨_, _, planned_append .., atMost_flashKernel .., atMost_writeMtd ..⟩
  | slug =>
    show ∃ kernel initrd, planned (slug m f) = kernel ++ initrd ∧ _
    unfold slug
    cases f.initrd with
    | none => exact ⟨[], [], rfl, .inl rfl, .inl rfl⟩
    | some initrd =>
      refine ⟨planned (slugKernel m f), planned (slugInitrd m initrd), ?_, ?_, ?_⟩
      · simp only [planned_require, planned_checkMtdSize, planned_append]
      · unfold slugKernel
        exact atMost_writeRaw ..
      · unfold slugInitrd
        rw [planned_require]
        exact atMost_writeRaw ..

/-- Everything that is written fits, and data that does not fit stops the run before it is
written, exactly if no link hides a size. -/
theorem main_safe : Safe m.size (main m f) ↔ Fits m f := by
  obtain ⟨kernel, initrd, hplanned, hkernel, hinitrd⟩ := main_planned m f
  rw [safe_iff_writesFit hplanned hkernel hinitrd]
  unfold main Fits
  rw [writesFit_append, sizeChecks_failed, and_iff_right (sizeChecks_fits m f)]
  refine forall_congr' fun hchecked => ?_
  cases m.method with
  | generic => exact generic_fits m f hchecked
  | redboot => exact redboot_fits m f hchecked
  | slug => exact slug_fits m f

end

/-! ## A link in `/boot` -/

/-- A partition of 1 MiB for the kernel, and 6 MiB for the initrd. -/
def slugMachine : Machine where
  method := .slug
  mtdKernel := some ⟨.nor, 1048576, 1, Nat.one_pos, one_dvd _⟩
  mtdInitrd := some ⟨.nor, 6291456, 1, Nat.one_pos, one_dvd _⟩
  machineId := false
  dtbAppend := false
  ukaddr := false
  uiaddr := false
  umaddr := false
  bootDevice := false
  bootKernelPath := false
  bootMultiPath := false
  bootInitrdPath := false

/-- `vmlinuz` is a link of 20 bytes to a kernel of 1500000 bytes. -/
def slugFiles : Files where
  kernel := ⟨1500000, some 20⟩
  initrd := some ⟨3000000, none⟩
  dtb := none
  mounted := false
  multi := fun kernel _ => kernel
  fisDirectory := true
  kernelOffset := some 393216

/-- The kernel is written past the end of its partition, and no check fails. -/
theorem slugMachine_overflow :
    (⟨.kernel, 1500032, 1500032⟩ : Write) ∈ (run (main slugMachine slugFiles)).writes ∧
      (run (main slugMachine slugFiles)).failed = false ∧
      ¬ Safe slugMachine.size (main slugMachine slugFiles) := by
  have hwrites : (⟨.kernel, 1500032, 1500032⟩ : Write) ∈
      (run (main slugMachine slugFiles)).writes := by decide
  refine ⟨hwrites, by decide, fun h => ?_⟩
  exact absurd (h.1 _ hwrites) (by decide)

end DebianInstaller.FlashKernel
