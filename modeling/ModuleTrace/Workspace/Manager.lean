/-!
# Package managers
-/

namespace ModuleTrace

inductive PackageManager where
  | npm
  | pnpm
  | yarn
  | deno
  | bun
  deriving DecidableEq, Repr, Inhabited

namespace PackageManager

/-- All managers, in the order in which they are tried. -/
def priority : List PackageManager :=
  [.npm, .pnpm, .yarn, .deno, .bun]

def command : PackageManager → String
  | .npm => "npm"
  | .pnpm => "pnpm"
  | .yarn => "yarn"
  | .deno => "deno"
  | .bun => "bun"

instance : ToString PackageManager := ⟨command⟩

def ofCommand? (name : String) : Option PackageManager :=
  priority.find? fun manager => manager.command = name

theorem ofCommand?_command (manager : PackageManager) :
    ofCommand? manager.command = some manager := by
  cases manager <;> decide

/-- Files in which the manager keeps what it has resolved. -/
def lockfiles : PackageManager → List String
  | .npm => ["package-lock.json", "npm-shrinkwrap.json"]
  | .pnpm => ["pnpm-lock.yaml"]
  | .yarn => ["yarn.lock"]
  | .deno => ["deno.lock"]
  | .bun => ["bun.lockb", "bun.lock"]

/-- Files that only this manager reads. -/
def configFiles : PackageManager → List String
  | .npm => [".npmrc"]
  | .pnpm => ["pnpm-workspace.yaml"]
  | .yarn => [".yarnrc.yml", ".yarnrc"]
  | .deno => ["deno.json", "deno.jsonc"]
  | .bun => ["bunfig.toml"]

end PackageManager

end ModuleTrace
