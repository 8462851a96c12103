import Clvm.Build.File

/-!
# Packages with programs

A package lists the sources of programs beside the modules of its own that are to be built. The hooks make the
commands that build and install a package take both into account.
-/

namespace Clvm.Build

structure Package where
  /-- The sources of programs. -/
  programs : List String
  /-- The modules to be built, if the package says. -/
  modules : Option (List String)
  /-- Whether the hooks are in place. -/
  hooked : Bool
deriving DecidableEq, Repr

namespace Package

variable [Curve]

def hasPrograms (p : Package) : Bool := !p.programs.isEmpty

def hasModules (p : Package) : Bool := !(p.modules.getD []).isEmpty

/-- Whether a package is taken to have something to build. -/
def hasAnythingToBuild (p : Package) : Bool := p.hasModules || (p.hooked && p.hasPrograms)

/-- Whether a command is replaced by the hooks. -/
def replaces (p : Package) (command : String) : Bool := p.hooked && command == "build_ext"

/-- Compiles all programs, each to a target of its own. -/
def buildPrograms (p : Package) : Action Session Unit :=
  p.programs.forM fun source => compileFile [] source (targetOf source)

/-- The building command: a list of further extensions to check is refused unless it is empty. -/
def build (p : Package) (further : List String) : Action Session Unit := do
  if !further.isEmpty then throw .notAnExtension
  p.buildPrograms

/-- The package as it is while it is being installed: its programs count as modules. -/
def whileInstalling (p : Package) : Package := { p with modules := some (p.modules.getD [] ++ p.programs) }

/-- The packages that are seen while installing, and the package afterwards. -/
def install (p : Package) : List Package × Package := ([p.whileInstalling], p)

end Package
end Clvm.Build
