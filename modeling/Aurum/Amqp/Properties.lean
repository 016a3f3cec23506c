import Aurum.Amqp.Panics

/-!
# AMQP — the properties of a message

A flags word says which of the 13 properties follow it. `decode` forgets
all of them when one of the three undefined flags is set, and it indexes
some of them without looking at the length of the input. Everything else
is read as the flags say.
-/

namespace Aurum.Amqp

open Aurum.Bytes Aurum.Reader BasicProperties

end Aurum.Amqp
