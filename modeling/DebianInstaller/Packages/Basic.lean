import DebianInstaller.Text
import Mathlib.Data.Fintype.Card

/-!
# The package data model of libdebian-installer

`struct di_package` and what hangs off it, field for field as `package.h` and
`system/packages.h` declare them. A pointer to a package is a value of an
arbitrary type `ι`; the reader of package files allocates them one after the
other, and the resolver only needs that there are finitely many.

A C string is the list of its characters, and `NULL` is `none`. A field that
`di_package_alloc` leaves zeroed has the value given here as its default.
-/

namespace DebianInstaller

/-- `enum di_package_priority`; zero is the value of a package that never had
a `Priority` field. -/
inductive PackagePriority where
  | unspecified
  | extra
  | optional
  | standard
  | important
  | required
  deriving DecidableEq, Repr, Inhabited

/-- The value of the enumerator. -/
def PackagePriority.code : PackagePriority → Nat
  | .unspecified => 0
  | .extra => 1
  | .optional => 2
  | .standard => 3
  | .important => 4
  | .required => 5

/-- `enum di_package_status`. -/
inductive PackageStatus where
  | undefined
  | notInstalled
  | unpacked
  | installed
  | halfConfigured
  | configFiles
  deriving DecidableEq, Repr, Inhabited

/-- The value of the enumerator. -/
def PackageStatus.code : PackageStatus → Nat
  | .undefined => 0
  | .notInstalled => 1
  | .unpacked => 2
  | .installed => 3
  | .halfConfigured => 4
  | .configFiles => 5

/-- `status >= di_package_status_unpacked`. -/
def PackageStatus.atLeastUnpacked (s : PackageStatus) : Bool :=
  decide (PackageStatus.unpacked.code ≤ s.code)

/-- `enum di_package_status_want`. -/
inductive PackageStatusWant where
  | unknown
  | install
  | hold
  | deinstall
  | purge
  deriving DecidableEq, Repr, Inhabited

/-- `enum di_package_type`. -/
inductive PackageType where
  | nonExistent
  | virtualPackage
  | realPackage
  deriving DecidableEq, Repr, Inhabited

/-- `enum di_package_dependency_type`. -/
inductive DependencyType where
  | replaces
  | provides
  | depends
  | preDepends
  | recommends
  | suggests
  | conflicts
  | enhances
  | reverseProvides
  | reverseEnhances
  deriving DecidableEq, Repr

/-- `struct di_package_dependency`. -/
structure PackageDependency (ι : Type*) where
  type : DependencyType
  ptr : ι
  deriving DecidableEq, Repr

/-- `struct di_package`, with the three fields that `struct di_system_package`
adds to it. -/
structure Package (ι : Type*) where
  package : Text := []
  type : PackageType := .nonExistent
  statusWant : PackageStatusWant := .unknown
  status : PackageStatus := .undefined
  essential : Bool := false
  priority : PackagePriority := .unspecified
  sectionName : Option Text := none
  installedSize : Int := 0
  maintainer : Option Text := none
  architecture : Option Text := none
  version : Option Text := none
  depends : List (PackageDependency ι) := []
  filename : Option Text := none
  size : Int := 0
  sha256 : Option Text := none
  shortDescription : Option Text := none
  description : Option Text := none
  resolver : BitVec 32 := 0#32
  installerMenuItem : Int := 0
  subarchitecture : Option Text := none
  kernelVersion : Option Text := none
  deriving DecidableEq

/-- `struct di_packages`: the packages, the list of those that a stanza was
read for, and the marker of the last resolver call. -/
structure Packages (ι : Type*) where
  table : ι → Package ι
  list : List ι
  resolver : BitVec 32

end DebianInstaller
