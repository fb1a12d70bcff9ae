import Pug.CommandLine.Report
import Pug.Proofs.Expression.Torn
import Pug.Proofs.Landing.Page
import Pug.Proofs.Template

/-!
# Folders

The report on a folder is put together from the reports on each of its templates alone, in the order
of the walk. A template that cannot be read or that is wrong adds a message and is counted as failed;
whatever becomes of it, the others are reported as before. The one exception is a template on which
the expression parser breaks down: there the run ends. That happens only where the scan of an
attribute's value is torn.
-/

namespace Pug.CommandLine

open FileTree (Entry)
open Text

section Outcomes

namespace Report

variable {count : Summary} {before after outcomes : List Outcome}

end Report

end Outcomes

section Entries

variable {run : Run} {e : Entry}

namespace Run

/-- The report on an entry that is the only file. A folder named like a template is a file that cannot
be read. -/
def alone (run : Run) (e : Entry) : Report :=
  .ofPath run e.path (some (.file e.content))

end Run

end Entries

section Breakdown

variable {E : Type} {run : Run} {e : Entry} {source : List Char}

end Breakdown

section Folders

variable {run : Run} {entries : List Entry} {e : Entry}

namespace Report

end Report

end Folders

end Pug.CommandLine
