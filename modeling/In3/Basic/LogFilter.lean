import In3.Core.Data
/-!
# Filters of event logs (`basic/eth_getLog.c`)

A request for logs has one parameter, an object with optional conditions on the
address, the block and the topics of a log. Its tokens are converted when they are
first read, and a loop that stops early leaves the rest as it was, so the object is
the state of `matches_filter`.
-/
open Lib

namespace In3

def K_TOPICS := key "topics"
end In3
