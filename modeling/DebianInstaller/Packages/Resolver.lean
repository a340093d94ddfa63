import DebianInstaller.Packages.Basic

/-!
# The dependency resolver

`di_packages_resolve_dependencies_recurse` and the entry points built on it,
from `packages.c` and `system/packages.c`.

The resolver keeps three bits per package in `resolver`: `r` says that the
package was entered, `r << 1` that it is accepted, and `r << 2`, on a virtual
package, that its best provider was tried and failed. The value `r` moves on by
three places with every call.

The check functions are function pointers in the source, and two of them call
back into the recursion. Here they take the recursion as an argument. The
recursion and the `while (1)` over the providers run on fuel; `none` means that
the fuel ran out, and it is the only way a call does not answer.
-/

namespace DebianInstaller.Packages

variable {ι : Type*} [DecidableEq ι]

/-- What a running resolver writes to: the packages, and the list behind
`do_real_data`. -/
structure Work (ι : Type*) where
  table : ι → Package ι
  data : List ι

/-- Change the resolver field of one package. -/
def Work.mark (w : Work ι) (p : ι) (f : BitVec 32 → BitVec 32) : Work ι :=
  { w with
    table := Function.update w.table p
      { w.table p with resolver := f (w.table p).resolver } }

/-- The type of `di_packages_resolve_dependencies_recurse`, the check record
being fixed: a package, the package that depends on it if there is one. -/
abbrev Recurse (ι : Type*) := ι → Option ι → Work ι → Option (Bool × Work ι)

/-- `struct di_packages_resolve_dependencies_check`. -/
structure Check (ι : Type*) where
  checkReal : Recurse ι → Option ι → PackageDependency ι → Work ι →
    Option (Bool × Work ι)
  checkVirtual : (ι → Package ι) → ι → Option (PackageDependency ι) →
    PackageDependency ι → Option (PackageDependency ι)
  checkNonExistant : ι → Bool
  doReal : ι → Work ι → Work ι
  resolver : BitVec 32

/-- The loop over the entries of a real package: every `Depends` and
`Pre-Depends` has to pass `check_real`. -/
def checkDepends (r : Check ι) (recurse : Recurse ι) (package : ι) :
    List (PackageDependency ι) → Work ι → Option (Bool × Work ι)
  | [], w => some (true, w)
  | d :: ds, w =>
      if d.type = .depends ∨ d.type = .preDepends then
        match r.checkReal recurse (some package) d w with
        | none => none
        | some (false, w) => some (false, w)
        | some (true, w) => checkDepends r recurse package ds w
      else checkDepends r recurse package ds w

/-- The loop that clears the third bit of a virtual package, once for every
provider. -/
def clearTried (r : Check ι) (ds : List (PackageDependency ι)) (x : BitVec 32) :
    BitVec 32 :=
  ds.foldl (fun x d =>
    if d.type = .reverseProvides then x &&& ~~~(r.resolver <<< 2) else x) x

/-- The loop that looks for the best provider of a virtual package. -/
def bestProvide (r : Check ι) (table : ι → Package ι) (package : ι) :
    Option (PackageDependency ι) :=
  (table package).depends.foldl (fun best d =>
    if d.type = .reverseProvides then
      if (table package).resolver &&& (r.resolver <<< 2) = 0#32 then
        r.checkVirtual table package best d
      else best
    else best) none

/-- The `while (1)` over the providers of a virtual package. -/
def provideLoop (r : Check ι) (recurse : Recurse ι) (package : ι)
    (dependend : Option ι) : Nat → Work ι → Option (Bool × Work ι)
  | 0, _ => none
  | n + 1, w =>
      match bestProvide r w.table package with
      | some best =>
          match r.checkReal recurse dependend best w with
          | none => none
          | some (true, w) => some (true, w)
          | some (false, w) =>
              provideLoop r recurse package dependend n
                (w.mark package (· ||| (r.resolver <<< 2)))
      | none => some (r.checkNonExistant package, w)

/-- `di_packages_resolve_dependencies_recurse`. The provider loop gets two
rounds more than the recursion below it has levels. -/
def resolveDependenciesRecurse (r : Check ι) :
    Nat → ι → Option ι → Work ι → Option (Bool × Work ι)
  | 0, _, _, _ => none
  | fuel + 1, package, dependend, w =>
      -- did we already check this package?
      if (w.table package).resolver &&& r.resolver ≠ 0#32 then
        some ((w.table package).resolver &&& (r.resolver <<< 1) ≠ 0#32, w)
      else
        let recurse := resolveDependenciesRecurse r fuel
        let w := w.mark package (· ||| r.resolver ||| (r.resolver <<< 1))
        let answer :=
          match (w.table package).type with
          | .realPackage =>
              match checkDepends r recurse package (w.table package).depends w with
              | none => none
              | some (false, w) => some (false, w)
              | some (true, w) => some (true, r.doReal package w)
          | .virtualPackage =>
              provideLoop r recurse package dependend (fuel + 2)
                (w.mark package (clearTried r (w.table package).depends))
          | .nonExistent => some (r.checkNonExistant package, w)
        match answer with
        | none => none
        | some (true, w) => some (true, w)
        -- error:
        | some (false, w) =>
            some (false, w.mark package (· &&& ~~~(r.resolver <<< 1)))

/-! ## The check functions -/

/-- `di_packages_resolve_dependencies_check_real`. -/
def checkReal (recurse : Recurse ι) (package : Option ι)
    (d : PackageDependency ι) (w : Work ι) : Option (Bool × Work ι) :=
  recurse d.ptr package w

/-- `di_packages_resolve_dependencies_check_virtual`. -/
def checkVirtual (table : ι → Package ι) (_package : ι)
    (best : Option (PackageDependency ι)) (d : PackageDependency ι) :
    Option (PackageDependency ι) :=
  match best with
  | none => some d
  | some b =>
      if (table b.ptr).priority.code < (table d.ptr).priority.code ∨
          ((table d.ptr).status.atLeastUnpacked = true ∧
            (table b.ptr).status.atLeastUnpacked = false) then some d
      else some b

/-- `di_packages_resolve_dependencies_check_non_existant`, and `_quiet`, which
differs in the level it logs at. -/
def checkNonExistant (_package : ι) : Bool := false

/-- `di_packages_resolve_dependencies_check_non_existant_permissive`. -/
def checkNonExistantPermissive (_package : ι) : Bool := true

/-- `di_packages_resolve_dependencies_do_real_list_append`. -/
def doRealListAppend (package : ι) (w : Work ι) : Work ι :=
  { w with data := w.data ++ [package] }

/-- `di_packages_resolve_dependencies_do_real_mark`. -/
def doRealMark (package : ι) (w : Work ι) : Work ι :=
  { w with
    table := Function.update w.table package
      { w.table package with statusWant := .install } }

/-! ### The checks of anna -/

/-- `strspn (s, " \t\n")` and `strcspn`, as predicates on one character. -/
def isBlankNl (c : Char) : Bool := c = ' ' || c = '\t' || c = '\n'

/-- The loop of `di_system_package_check_subarchitecture`, from `begin` on. -/
def subarchitectureLoop (subarchitecture : Text) : Nat → Text → Bool
  | 0, _ => false
  | n + 1, begin =>
      if begin = [] then false
      else
        let word := begin.dropWhile isBlankNl
        if word.takeWhile (fun c => !isBlankNl c) = subarchitecture then true
        else subarchitectureLoop subarchitecture n
          (word.dropWhile (fun c => !isBlankNl c))

/-- `di_system_package_check_subarchitecture`. Every round but the last leaves
at least one character behind, so the length bounds the rounds. -/
def checkSubarchitecture (p : Package ι) (subarchitecture : Text) : Bool :=
  match p.subarchitecture with
  | none => true
  | some s => subarchitectureLoop subarchitecture (s.length + 1) s

/-- `check_real_anna`. -/
def checkRealAnna (recurse : Recurse ι) (package : Option ι)
    (d : PackageDependency ι) (w : Work ι) : Option (Bool × Work ι) :=
  if (w.table d.ptr).status.atLeastUnpacked then some (true, w)
  else recurse d.ptr package w

/-- `check_virtual_anna`. -/
def checkVirtualAnna (subarchitecture kernel : Text) (table : ι → Package ι)
    (_package : ι) (best : Option (PackageDependency ι))
    (d : PackageDependency ι) : Option (PackageDependency ι) :=
  if (table d.ptr).kernelVersion.isSome ∧
      (table d.ptr).kernelVersion ≠ some kernel then best
  else if checkSubarchitecture (table d.ptr) subarchitecture = false then best
  else
    match best with
    | none => some d
    | some b =>
        if (table b.ptr).priority.code < (table d.ptr).priority.code ∨
            ((table d.ptr).status.atLeastUnpacked = true ∧
              (table b.ptr).status.atLeastUnpacked = false) ∨
            ((table d.ptr).statusWant = .install ∧
              (table b.ptr).statusWant ≠ .install) then some d
        else some b

/-! ## The entry points -/

/-- `INT_MAX`, converted to the type of the marker it is compared with. -/
def intMax : BitVec 32 := 0x7fffffff#32

/-- `di_packages_resolve_dependencies_marker`. -/
def resolveDependenciesMarker (packages : Packages ι) : Packages ι :=
  if packages.resolver = 0#32 then { packages with resolver := 1#32 }
  else if intMax >>> 2 < packages.resolver then
    { packages with
      table := fun p => { packages.table p with resolver := 0#32 }
      resolver := 1#32 }
  else { packages with resolver := packages.resolver <<< 3 }

/-- The loop over the roots. A root that resolves moves what `do_real` has
collected over to the list that is returned. -/
def resolveRoots (s : Check ι) (fuel : Nat) :
    List ι → Work ι → List ι → Option (Work ι × List ι)
  | [], w, install => some (w, install)
  | p :: ps, w, install =>
      match resolveDependenciesRecurse s fuel p none w with
      | none => none
      | some (true, w) => resolveRoots s fuel ps { w with data := [] } (install ++ w.data)
      | some (false, w) => resolveRoots s fuel ps w install

/-- `di_packages_resolve_dependencies_special`: the packages afterwards, and
the list returned. -/
def resolveDependenciesSpecial (packages : Packages ι) (list : List ι)
    (s : Check ι) (fuel : Nat) : Option (Packages ι × List ι) :=
  let packages := resolveDependenciesMarker packages
  match resolveRoots { s with resolver := packages.resolver } fuel list
      ⟨packages.table, []⟩ [] with
  | none => none
  | some (w, install) => some ({ packages with table := w.table }, install)

/-- `di_packages_resolve_dependencies_array_special`: the same on a
`NULL`-terminated array. -/
def resolveDependenciesArraySpecial (packages : Packages ι) (array : List ι)
    (s : Check ι) (fuel : Nat) : Option (Packages ι × List ι) :=
  resolveDependenciesSpecial packages array s fuel

/-- The record that `di_packages_resolve_dependencies` and `_array` pass on. -/
def strictCheck : Check ι where
  checkReal := checkReal
  checkVirtual := checkVirtual
  checkNonExistant := checkNonExistant
  doReal := doRealListAppend
  resolver := 0#32

/-- `di_packages_resolve_dependencies`. -/
def resolveDependencies (packages : Packages ι) (list : List ι) (fuel : Nat) :
    Option (Packages ι × List ι) :=
  resolveDependenciesSpecial packages list strictCheck fuel

/-- `di_packages_resolve_dependencies_array`. -/
def resolveDependenciesArray (packages : Packages ι) (array : List ι)
    (fuel : Nat) : Option (Packages ι × List ι) :=
  resolveDependenciesArraySpecial packages array strictCheck fuel

/-- The record of `di_system_packages_resolve_dependencies_array_permissive`. -/
def permissiveCheck : Check ι :=
  { strictCheck with checkNonExistant := checkNonExistantPermissive }

/-- `di_system_packages_resolve_dependencies_array_permissive`. -/
def resolveDependenciesArrayPermissive (packages : Packages ι) (array : List ι)
    (fuel : Nat) : Option (Packages ι × List ι) :=
  resolveDependenciesArraySpecial packages array permissiveCheck fuel

/-- The loop over `packages->list` in
`di_packages_resolve_dependencies_mark_special`. -/
def markLoop (s : Check ι) (fuel : Nat) : List ι → Work ι → Option (Work ι)
  | [], w => some w
  | p :: ps, w =>
      if (w.table p).resolver &&& s.resolver = 0#32 ∧
          (w.table p).statusWant = .install then
        match resolveDependenciesRecurse s fuel p none w with
        | none => none
        | some (_, w) => markLoop s fuel ps w
      else markLoop s fuel ps w

/-- `di_packages_resolve_dependencies_mark_special`. -/
def resolveDependenciesMarkSpecial (packages : Packages ι) (s : Check ι)
    (fuel : Nat) : Option (Packages ι) :=
  let packages := resolveDependenciesMarker packages
  match markLoop { s with resolver := packages.resolver } fuel packages.list
      ⟨packages.table, []⟩ with
  | none => none
  | some w => some { packages with table := w.table }

/-- The record of `di_packages_resolve_dependencies_mark`. -/
def markCheck : Check ι := { strictCheck with doReal := doRealMark }

/-- `di_packages_resolve_dependencies_mark`. -/
def resolveDependenciesMark (packages : Packages ι) (fuel : Nat) :
    Option (Packages ι) :=
  resolveDependenciesMarkSpecial packages markCheck fuel

/-- The record of `di_system_packages_resolve_dependencies_mark_anna`. -/
def annaCheck (subarchitecture kernel : Text) : Check ι where
  checkReal := checkRealAnna
  checkVirtual := checkVirtualAnna subarchitecture kernel
  checkNonExistant := checkNonExistantPermissive
  doReal := doRealMark
  resolver := 0#32

/-- `di_system_packages_resolve_dependencies_mark_anna`. -/
def resolveDependenciesMarkAnna (packages : Packages ι)
    (subarchitecture kernel : Text) (fuel : Nat) : Option (Packages ι) :=
  resolveDependenciesMarkSpecial packages (annaCheck subarchitecture kernel) fuel

end DebianInstaller.Packages
