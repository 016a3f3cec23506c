import Aurum.Lib.Bits
import Aurum.Kernels
import Aurum.Types
import Aurum.Intrusive.Lists
import Aurum.Queue.Diagnostics
import Aurum.Queue.Forms
import Aurum.Consumer.Lockstep
import Aurum.Consumer.WindowSegments
import Aurum.Consumer.Redelivered
import Aurum.Consumer.Refusals
import Aurum.Consumer.Accounting
import Aurum.Routing.Compiled
import Aurum.Storage.Record
import Aurum.Native.Intake
import Aurum.Amqp.RoundTrip
import Aurum.Amqp.Chunks
import Aurum.Amqp.Outbound
import Aurum.Amqp.Properties
import Aurum.Amqp.RouteCache
import Aurum.Broker.Requeue
import Aurum.Broker.Rejects
import Aurum.Broker.Conservation
import Aurum.Broker.Independent
import Aurum.Broker.Redeclared
import Aurum.Broker.QueueNames
import Aurum.Service.Owners
import Aurum.Server.Isolation
import Aurum.Server.ConsumerIds
import Aurum.Server.Tags
import Aurum.Server.Orphans
import Aurum.Consumer.Lifecycle
