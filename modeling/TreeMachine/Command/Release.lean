/-!
# Release information

The version of the tool and what it was built with, as text or as JSON.
-/

namespace TreeMachine.Command

/-- What is known about a build of the tool. -/
structure Release where
  version : String := "0.1.0"
  buildDate : String := "2026-10-18"
  commit : String := "unknown"
  /-- The version of the toolchain. -/
  toolchain : String := "go1.27.1"
  platform : String := "linux"
  arch : String := "amd64"
  deriving Repr, DecidableEq

namespace Release

/-- The lines about a release of a tool. An unknown commit is left out. -/
def lines (r : Release) (tool : String) : List String :=
  let commit := if r.commit.isEmpty || r.commit == "unknown" then [] else
    [s!"Commit: {r.commit}\n"]
  [s!"{tool} v{r.version}\n", s!"Build Date: {r.buildDate}\n"] ++ commit ++
    [s!"Go Version: {r.toolchain}\n", s!"Platform: {r.platform}/{r.arch}\n"]

def field (indent : Nat) (name value : String) : String :=
  String.ofList (List.replicate indent ' ') ++ "\"" ++ name ++ "\": " ++ value

def quoted (s : String) : String :=
  "\"" ++ s ++ "\""

/-- The release of a tool as a JSON object, with the end of the last line. -/
def json (r : Release) (tool : String) : String :=
  let info := [("version", r.version), ("build_date", r.buildDate), ("commit_sha", r.commit),
    ("go_version", r.toolchain), ("platform", r.platform), ("arch", r.arch)]
  let inner := String.intercalate ",\n" (info.map fun (n, v) => field 4 n (quoted v))
  "\x7b\n" ++ field 2 "tool" (quoted tool) ++ ",\n" ++
    field 2 "version_info" ("\x7b\n" ++ inner ++ "\n  \x7d") ++ "\n\x7d\n"

end Release

end TreeMachine.Command
