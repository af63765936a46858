import ChomskyNormal.Refusal

/-!
What can be wrong with a rule file, and how each fault reads.
-/

set_option autoImplicit false
set_option relaxedAutoImplicit false

namespace ChomskyNormal

/-- The kinds of failure of input and output. -/
inductive FileFault.Kind where
  | notFound
  | permissionDenied
  | connectionRefused
  | connectionReset
  | hostUnreachable
  | networkUnreachable
  | connectionAborted
  | notConnected
  | addressInUse
  | addressNotAvailable
  | networkDown
  | brokenPipe
  | alreadyExists
  | wouldBlock
  | notADirectory
  | isADirectory
  | directoryNotEmpty
  | readOnlyFileSystem
  | fileSystemLoop
  | staleNetworkFile
  | invalidInput
  | invalidData
  | timedOut
  | writeZero
  | storageFull
  | notSeekable
  | quotaExceeded
  | fileTooLarge
  | resourceBusy
  | executableFileBusy
  | deadlock
  | crossesDevices
  | tooManyLinks
  | invalidFileName
  | argumentListTooLong
  | interrupted
  | unsupported
  | unexpectedEnd
  | outOfMemory
  | inProgress
  | other
  | uncategorized
deriving DecidableEq

/-- Why a file could not be read, in the system's words. -/
structure FileFault where
  kind : FileFault.Kind
  detail : Text
deriving DecidableEq

/-- What can be wrong with a rule file. -/
inductive Fault where
  | missingSign
  | extraSign
  | brokenSign
  | badHead
  | stray (c : Char)
  | undefined (c : Char)
  | uncut
  | blankRule
  | refused (reason : Refusal)
  | unreadable (reason : FileFault)
deriving DecidableEq

namespace Fault

def message : Fault → Text
  | missingSign => "Expected `::=` after nonterminal".toList
  | extraSign => "Unexpected `::=` encountered".toList
  | brokenSign => "Malformed `::=`".toList
  | badHead => "Tried to define something other than a nonterminal".toList
  | stray c => "Unexpected character ".toList ++ Text.quoted [c]
  | undefined c => "Could not find definition for ".toList ++ Text.quoted [c]
  | uncut => "Rewrite was not fully split (this is a problem with cyk, not the grammar)".toList
  | blankRule =>
      "Blank line encountered in rule parser (this is a problem with cyk, not the grammar)".toList
  | refused reason => reason.message
  | unreadable reason => "File error: ".toList ++ reason.detail

/-- Two faults are the same when they are of one kind and speak of the same thing. The system's
words do not count, only the kind of its failure. -/
def same : Fault → Fault → Bool
  | unreadable r, unreadable s => r.kind == s.kind
  | stray c, stray d => c == d
  | undefined c, undefined d => c == d
  | refused r, refused s => r == s
  | e, f => e.ctorIdx == f.ctorIdx

end Fault

end ChomskyNormal
