import OffsetLogic.Config.Basic
import OffsetLogic.Toml.Parser

/-!
# Configuration files

A configuration is written as a TOML document of at most three lines, and read from one; what is not
set has its default, and what the document says besides is passed over. TOML integers are signed
words of 64 bits, so a larger limit cannot be written.

A file is what is found under a name. Reading one fails with a cause, `ConfigError`. Looking for a
configuration tries two files, and passes over one that cannot be used with a warning.

**The file system is an argument.** `File` says what is found under a name: nothing, a directory or
bytes. So `load` and `discover` are functions, and everything they can do is seen in their cases: a
file that is missing, a directory, bytes that are no text, a text that is no document, a document
that is no configuration. The first three are errors of reading, with their causes, and the last two
are one error of parsing; the message of the format's own reader is not modelled, and
`ConfigError.message` ends where it would begin.

The reader looks three keys up and ignores the others, so it has no notion of an unknown setting. A
key with a value of the wrong kind is an error, and so is a negative limit. `discover` asks the
environment first; a file that is named there and cannot be used is passed over like a local one,
with a warning that says which of the two it was.
-/

namespace OffsetLogic

/-- Why a file could not be read. -/
inductive ReadError where
  | notFound | isDirectory | invalidText
deriving DecidableEq

/-- The message of the operating system. -/
def ReadError.message : ReadError → String
  | notFound => "No such file or directory (os error 2)"
  | isDirectory => "Is a directory (os error 21)"
  | invalidText => "stream did not contain valid UTF-8"

/-- What is found under a name. -/
inductive File where
  | missing
  | directory
  | contents (bytes : ByteArray)

namespace File

/-- The text of a file. -/
def read : File → Except ReadError String
  | missing => .error .notFound
  | directory => .error .isDirectory
  | contents bytes =>
    match String.fromUTF8? bytes with
    | some s => .ok s
    | none => .error .invalidText

/-- Whether anything is found. -/
def isFound : File → Bool
  | missing => false
  | _ => true

end File

/-- Why no configuration was read. -/
inductive ConfigError where
  /-- The file at `path` could not be read. -/
  | read (path : String) (cause : ReadError)
  /-- The text is not a configuration. -/
  | parse
deriving DecidableEq

/-- The message of an error. What the reader of the format has to say about a malformed text is not
part of it. -/
def ConfigError.message : ConfigError → String
  | read path cause => s!"Failed to read config file {path}: {cause.message}"
  | parse => "Failed to parse prover config: "

namespace Config

/-! ### Writing -/

/-- The line that sets a limit, if it is set and can be written. -/
def limitLine? (key : String) : Option Nat → Option String
  | none => some ""
  | some n => (Int64.ofInt? n).map fun k ↦ s!"{key} = {k}\n"

/-- The TOML document of a configuration; `none` if a limit is out of range. -/
def toToml? (c : Config) : Option String := do
  let rounds ← limitLine? "max_rounds" c.maxRounds
  let clauses ← limitLine? "max_clauses" c.maxClauses
  return rounds ++ clauses ++ s!"record_derivation = {c.recordDerivation}\n"

/-! ### Reading -/

/-- The limit that an entry sets; an absent entry sets none. -/
def limitOf? : Option Toml.Node → Option (Option Nat)
  | none => some none
  | some (.integer n) => if 0 ≤ n.toInt then some (some n.toInt.toNat) else none
  | some _ => none

/-- The configuration that the entries of a document set. -/
def ofEntries? (entries : Toml.Entries) : Option Config := do
  let maxRounds ← limitOf? (entries.lookup "max_rounds")
  let maxClauses ← limitOf? (entries.lookup "max_clauses")
  match entries.lookup "record_derivation" with
  | none => return { maxRounds, maxClauses }
  | some (.boolean b) => return { maxRounds, maxClauses, recordDerivation := b }
  | some _ => none

/-- The configuration that a TOML document writes. -/
def ofToml (document : String) : Except ConfigError Config :=
  match (Toml.parse? document).bind ofEntries? with
  | some c => .ok c
  | none => .error .parse

/-- The configuration in the file found at `path`. -/
def load (path : String) (file : File) : Except ConfigError Config :=
  match file.read with
  | .error cause => .error (.read path cause)
  | .ok document => ofToml document

/-! ### Looking for a configuration -/

/-- The variable of the environment that names a configuration file. -/
def environmentVariable : String := "DEDUCE_CONFIG"

/-- The configuration file of a directory. -/
def localFileName : String := ".deducerc"

/-- The part of the core that warns about configuration files. -/
def warningTarget : String := "deduce_kb::config"

/-- A file that was passed over, told by where its name came from. -/
inductive Warning where
  | environment
  | localFile
deriving DecidableEq

/-- The message of a warning. -/
def Warning.message : Warning → String
  | environment => "ignoring prover config from " ++ environmentVariable
  | localFile => "ignoring " ++ localFileName

/-- The configuration of the file named by the environment, if it names one that can be used, or
else of the local file, if there is one that can be used, or else the default; with a warning for
each file that was passed over. -/
def discover (named : Option File) (localFile : File) : Config × List Warning :=
  match named.map (load environmentVariable) with
  | some (.ok c) => (c, [])
  | some (.error _) =>
    let (c, warnings) := fromLocal
    (c, .environment :: warnings)
  | none => fromLocal
where
  /-- The configuration of the local file, or else the default. -/
  fromLocal : Config × List Warning :=
    if localFile.isFound then
      match load localFileName localFile with
      | .ok c => (c, [])
      | .error _ => ({}, [.localFile])
    else ({}, [])

end Config

end OffsetLogic
