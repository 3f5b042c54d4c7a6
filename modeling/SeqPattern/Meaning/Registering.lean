import SeqPattern.Registry.Request

namespace SeqPattern.Registry

variable {m : Type → Type} {α : Type}

def Request.registered? : Request m α → Option (String × m (Expression α))
  | register name make => some (name, make)
  | _ => none

def registrations (requests : List (Request m α)) : List (String × m (Expression α)) :=
  requests.filterMap Request.registered?

def latest (requests : List (Request m α)) (name : String) : Option (m (Expression α)) :=
  (((registrations requests).filter (·.1 = name)).getLast?).map (·.2)

def missing (requests : List (Request m α)) (names : List String) : Option String :=
  names.find? fun name => (latest requests name).isNone

/-- What comes of what was built: it is withheld if a name is missing. -/
def outcome {β : Type} (missing : Option String) (b : β) : Except Failure β :=
  match missing with
  | none => .ok b
  | some name => .error (.unknownName name)

/-- What a registry has come to after the requests. Looking up leaves it as it is. -/
def after (r : Registry m α) (requests : List (Request m α)) : Registry m α :=
  (registrations requests).foldl (fun r p => r.register p.1 p.2) r

end SeqPattern.Registry
